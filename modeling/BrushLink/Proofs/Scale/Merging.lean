import BrushLink.Proofs.Table
import BrushLink.Scale.Table
import Mathlib.Data.List.Basic

/-! # Requests for a scale, and what they merge to

A unit view requests a scale for each field on a channel with a scale, and what it
requests can be read off its encoding (`UnitView.scaleRequest?_eq_some`).

Merging is associative, so requests that are merged pairwise, at whatever levels
of a tree, come to the same as all of them merged in one row (`combine_append`).
For requests of one field each the outcome is known in closed form: the type of the
first, the first domain that does not come from the data, and the fields in order
of first mention (`combine_singles`).  So it is for the requests of unit views
(`combine_units`).
-/
namespace BrushLink

/-! ## The requests of a unit view -/

/-- The request that a unit view makes on a channel. -/
def UnitView.scaleRequest? (u : UnitView) (c : Channel) : Option ScaleRequest :=
  (u.encoding.get? c).bind (ChannelDef.scaleRequest? u.mark c)

theorem UnitView.get?_scaleRequests (u : UnitView) (c : Channel) :
    u.scaleRequests.get? c = u.scaleRequest? c :=
  Table.get?_filterMap ..

/-- A request is made on the channels with a scale that have a field: for this field
alone, with the declared domain, and with the type that is named or else follows from
the channel, the field and the mark. -/
theorem UnitView.scaleRequest?_eq_some {u : UnitView} {c : Channel} {r : ScaleRequest} :
    u.scaleRequest? c = some r ↔
      c.hasScale ∧ ∃ d f, u.encoding.get? c = some d ∧ d.field = some f ∧
        r = ⟨d.scaleType.getD (.default c d.type u.mark d.binned), d.domain, [f]⟩ := by
  unfold scaleRequest?
  rw [Option.bind_eq_some_iff]
  constructor
  · rintro ⟨d, hd, hr⟩
    unfold ChannelDef.scaleRequest? at hr
    split at hr
    · rename_i hc
      obtain ⟨f, hf, rfl⟩ := Option.map_eq_some_iff.mp hr
      exact ⟨hc, d, f, hd, hf, rfl⟩
    · cases hr
  · rintro ⟨hc, d, f, hd, hf, rfl⟩
    exact ⟨d, hd, by rw [ChannelDef.scaleRequest?, if_pos hc, hf, Option.map_some]⟩

theorem UnitView.scaleRequest?_isSome {u : UnitView} {c : Channel} :
    (u.scaleRequest? c).isSome ↔ c.hasScale ∧ (u.field? c).isSome := by
  constructor
  · intro h
    obtain ⟨r, hr⟩ := Option.isSome_iff_exists.mp h
    obtain ⟨hc, d, f, hd, hf, -⟩ := scaleRequest?_eq_some.mp hr
    exact ⟨hc, by rw [field?, hd, Option.bind_some, hf, Option.isSome_some]⟩
  · rintro ⟨hc, h⟩
    obtain ⟨f, hf⟩ := Option.isSome_iff_exists.mp h
    obtain ⟨d, hd, hf⟩ := Option.bind_eq_some_iff.mp hf
    exact Option.isSome_of_eq_some (scaleRequest?_eq_some.mpr ⟨hc, d, f, hd, hf, rfl⟩)

/-! ## Merging -/

namespace ScaleRequest

theorem merge_assoc (a b c : ScaleRequest) : (a.merge b).merge c = a.merge (b.merge c) := by
  have hd : (if (if a.domain.isData then b.domain else a.domain).isData then c.domain
      else if a.domain.isData then b.domain else a.domain) =
      if a.domain.isData then (if b.domain.isData then c.domain else b.domain) else a.domain := by
    by_cases ha : a.domain.isData <;> simp [ha]
  have hf : (a.fields ++ b.fields.filter fun f => !a.fields.contains f) ++
        c.fields.filter (fun f =>
          !(a.fields ++ b.fields.filter fun f => !a.fields.contains f).contains f) =
      a.fields ++ (b.fields ++ c.fields.filter fun f => !b.fields.contains f).filter
        fun f => !a.fields.contains f := by
    rw [List.filter_append, List.filter_filter, List.append_assoc]
    congr 2
    refine List.filter_congr fun f _ => ?_
    by_cases hfa : f ∈ a.fields <;> simp [hfa]
  simp only [merge, mk.injEq, true_and]
  exact ⟨hd, hf⟩

/-- All requests of a list merged, the first one first. -/
def combine : List ScaleRequest → Option ScaleRequest
  | [] => none
  | r :: rs => some (rs.foldl merge r)

@[simp] theorem combine_nil : combine [] = none := rfl

theorem foldl_merge (r s : ScaleRequest) (rs : List ScaleRequest) :
    rs.foldl merge (r.merge s) = r.merge (rs.foldl merge s) := by
  induction rs generalizing s with
  | nil => rfl
  | cons q rs ih => rw [List.foldl_cons, List.foldl_cons, merge_assoc, ih]

theorem combine_append (rs ss : List ScaleRequest) :
    combine (rs ++ ss) = Option.merge merge (combine rs) (combine ss) := by
  cases rs with
  | nil => simp
  | cons r rs =>
    cases ss with
    | nil => simp
    | cons s ss =>
      rw [List.cons_append, combine, combine, combine, Option.merge_some_some, List.foldl_append,
        List.foldl_cons, foldl_merge]

/-- What comes of requests of one field each. -/
theorem foldl_merge_singles (rs : List ScaleRequest) (hs : ∀ r ∈ rs, ∃ f, r.fields = [f])
    (q : ScaleRequest) (ds : List ScaleDomain) (fs : List Field)
    (hd : q.domain = (ds.find? fun d => !d.isData).getD .data) (hf : q.fields = fs.eraseDups) :
    rs.foldl merge q =
      ⟨q.type, ((ds ++ rs.map domain).find? fun d => !d.isData).getD .data,
        (fs ++ rs.flatMap fields).eraseDups⟩ := by
  induction rs generalizing q ds fs with
  | nil => simp [← hd, ← hf]
  | cons r rs ih =>
    rw [List.foldl_cons, ih (fun s h => hs s (List.mem_cons_of_mem _ h)) (q.merge r)
      (ds ++ [r.domain]) (fs ++ r.fields)]
    · simp [merge]
    · simp only [merge, hd, List.find?_append]
      cases hfind : ds.find? fun d => !d.isData with
      | none => cases r.domain <;> simp [ScaleDomain.isData]
      | some d =>
        have hnot : d.isData = false := by simpa using List.find?_some hfind
        simp [hnot]
    · obtain ⟨f, hr⟩ := hs r List.mem_cons_self
      simp only [merge, hf, hr, List.eraseDups_append]
      by_cases hmem : f ∈ fs <;> simp [hmem, List.removeAll, List.eraseDups_cons]

theorem combine_singles {rs : List ScaleRequest} (hs : ∀ r ∈ rs, ∃ f, r.fields = [f])
    {q : ScaleRequest} (h : combine rs = some q) :
    rs.head?.map type = some q.type ∧
      q.domain = ((rs.map domain).find? fun d => !d.isData).getD .data ∧
      q.fields = (rs.flatMap fields).eraseDups := by
  cases rs with
  | nil => cases h
  | cons r rs =>
    obtain ⟨f, hr⟩ := hs r List.mem_cons_self
    have hd : r.domain = ([r.domain].find? fun d => !d.isData).getD .data := by
      cases r.domain <;> rfl
    have hf : r.fields = r.fields.eraseDups := by simp [hr, List.eraseDups_cons]
    have hq := Option.some.inj h
    rw [foldl_merge_singles rs (fun s h => hs s (List.mem_cons_of_mem _ h)) r _ _ hd hf] at hq
    rw [← hq]
    exact ⟨rfl, rfl, rfl⟩

/-- What the requests of unit views on a channel come to, said by their encodings. -/
theorem combine_units {c : Channel} (hc : c.hasScale) {us : List UnitView}
    (hus : ∀ u ∈ us, (u.field? c).isSome) {q : ScaleRequest}
    (h : combine (us.filterMap fun u => u.scaleRequest? c) = some q) :
    q.fields = (us.filterMap fun u => u.field? c).eraseDups ∧
      (∃ u d, us.head? = some u ∧ u.encoding.get? c = some d ∧
        q.type = d.scaleType.getD (.default c d.type u.mark d.binned)) ∧
      q.domain = ((us.filterMap fun u =>
        (u.encoding.get? c).map ChannelDef.domain).find? fun d => d ≠ .data).getD .data := by
  have hask : ∀ u ∈ us, ∃ d f, u.encoding.get? c = some d ∧ d.field = some f ∧
      u.scaleRequest? c =
        some ⟨d.scaleType.getD (.default c d.type u.mark d.binned), d.domain, [f]⟩ := by
    intro u hu
    obtain ⟨f, hf⟩ := Option.isSome_iff_exists.mp (hus u hu)
    obtain ⟨d, hd, hf⟩ := Option.bind_eq_some_iff.mp hf
    exact ⟨d, f, hd, hf, UnitView.scaleRequest?_eq_some.mpr ⟨hc, d, f, hd, hf, rfl⟩⟩
  have hsingles : ∀ r ∈ us.filterMap fun u => u.scaleRequest? c, ∃ f, r.fields = [f] := by
    intro r hr
    obtain ⟨u, hu, hr⟩ := List.mem_filterMap.mp hr
    obtain ⟨d, f, -, -, he⟩ := hask u hu
    obtain rfl := Option.some.inj (he.symm.trans hr)
    exact ⟨f, rfl⟩
  obtain ⟨htype, hdomain, hfields⟩ := combine_singles hsingles h
  refine ⟨hfields.trans (congrArg List.eraseDups ?_), ?_, hdomain.trans ?_⟩
  · have hone : ∀ u ∈ us, (u.scaleRequest? c).map fields = (u.field? c).map fun f => [f] := by
      intro u hu
      obtain ⟨d, f, hd, hf, he⟩ := hask u hu
      simp [he, UnitView.field?, hd, hf]
    rw [List.flatMap_def, List.map_filterMap, List.filterMap_congr hone, ← List.map_filterMap,
      ← List.flatMap_def, List.flatMap_singleton']
  · cases us with
    | nil => cases h
    | cons u us =>
      obtain ⟨d, f, hd, -, he⟩ := hask u List.mem_cons_self
      rw [List.filterMap_cons, he] at htype
      exact ⟨u, d, rfl, hd, (Option.some.inj htype).symm⟩
  · have hone : ∀ u ∈ us,
        (u.scaleRequest? c).map domain = (u.encoding.get? c).map ChannelDef.domain := by
      intro u hu
      obtain ⟨d, f, hd, -, he⟩ := hask u hu
      rw [he, hd, Option.map_some, Option.map_some]
    have hdata : (fun d : ScaleDomain => !d.isData) = fun d => decide (d ≠ .data) := by
      funext d
      cases d <;> simp [ScaleDomain.isData]
    rw [List.map_filterMap, List.filterMap_congr hone, hdata]

end ScaleRequest

end BrushLink
