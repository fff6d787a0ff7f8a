import BrushLink.Proofs.Result
import BrushLink.Proofs.Selection.Parsing
import BrushLink.Proofs.Signal.Expression
import BrushLink.Proofs.Signal.TopLevel

/-! # References between the signals of a unit view

A signal refers to others in two ways: a handler waits for them, or they are the
data signals that a composite lists.  In the signals of a unit view every reference
is to an earlier signal (`linked_unitSignals`).  The view's composites are those of
the selections that do not live in the outermost scope, over all their fields
(`Component.composite_mem_signals`), and what it pushes are fields that a selection
keeps there (`Component.push_mem_signals`).
-/
namespace BrushLink

/-- The signals that fire a handler. -/
def Events.sources : Events → List String
  | .stream _ => []
  | .signal name => [name]
  | .signals names => names

namespace Signal

/-- The signals that the handlers of a signal wait for. -/
def sources : Signal → List String
  | .declared _ _ _ on => on.flatMap fun h => h.events.sources
  | .push _ => []

/-- A handler of the signal waits for a name, or the signal is a composite that
lists it. -/
def RefersTo (r : Signal) (n : String) : Prop :=
  n ∈ r.sources ∨ ∃ s fs f, r = composite s fs ∧ f ∈ fs ∧ n = dataSignalName s f

/-- The signal follows an object literal. -/
def IsLiteral (r : Signal) : Prop := ∃ es, r.update? = some (compositeUpdate es)

theorem isLiteral_composite (s : String) (fs : List Field) : (composite s fs).IsLiteral :=
  ⟨_, rfl⟩

theorem not_isLiteral_of_update? {r : Signal} (h : r.update? = none) : ¬ r.IsLiteral := by
  rintro ⟨es, he⟩
  rw [h] at he
  cases he

theorem refersTo_iff_of_not_isLiteral {r : Signal} (h : ¬ r.IsLiteral) {n : String} :
    r.RefersTo n ↔ n ∈ r.sources := by
  refine or_iff_left ?_
  rintro ⟨s, fs, f, rfl, -, -⟩
  exact h (isLiteral_composite s fs)

theorem refersTo_iff_of_update? {r : Signal} (h : r.update? = none) {n : String} :
    r.RefersTo n ↔ n ∈ r.sources :=
  refersTo_iff_of_not_isLiteral (not_isLiteral_of_update? h)

theorem refersTo_composite {s n : String} {fs : List Field} :
    (composite s fs).RefersTo n ↔ ∃ f ∈ fs, n = dataSignalName s f := by
  constructor
  · rintro (h | ⟨s', fs', f, he, hf, rfl⟩)
    · cases h
    · obtain ⟨rfl, rfl⟩ := composite_inj he
      exact ⟨f, hf, rfl⟩
  · rintro ⟨f, hf, rfl⟩
    exact Or.inr ⟨s, fs, f, rfl, hf, rfl⟩

end Signal

/-! ## Lists without dangling references -/

/-- Every reference in a list of signals is to an earlier one, or to a name that was
there before the list. -/
def Linked : List String → List Signal → Prop
  | _, [] => True
  | seen, r :: rs => (∀ n, r.RefersTo n → n ∈ seen) ∧ Linked (seen ++ [r.name]) rs

namespace Linked
variable {seen seen' : List String} {rs qs : List Signal}

theorem mono (h : Linked seen rs) (hsub : seen ⊆ seen') : Linked seen' rs := by
  induction rs generalizing seen seen' with
  | nil => trivial
  | cons r rs ih =>
    refine ⟨fun n hn => hsub (h.1 n hn), ih h.2 ?_⟩
    intro n hn
    rcases List.mem_append.mp hn with hn | hn
    · exact List.mem_append_left _ (hsub hn)
    · exact List.mem_append_right _ hn

theorem append (h : Linked seen rs) (hq : Linked (seen ++ rs.map Signal.name) qs) :
    Linked seen (rs ++ qs) := by
  induction rs generalizing seen with
  | nil => simpa using hq
  | cons r rs ih =>
    refine ⟨h.1, ih h.2 ?_⟩
    simpa [List.append_assoc] using hq

/-- Lists that need nothing from outside can be put one after the other. -/
theorem flatMap {α : Type} {f : α → List Signal} {as : List α}
    (h : ∀ a ∈ as, Linked [] (f a)) : Linked seen (as.flatMap f) := by
  induction as generalizing seen with
  | nil => trivial
  | cons a as ih =>
    rw [List.flatMap_cons]
    refine append ((h a List.mem_cons_self).mono (List.nil_subset _)) (ih fun b hb => ?_)
    exact h b (List.mem_cons_of_mem a hb)

/-- Read at one place of the list. -/
theorem at_split {pre post : List Signal} {r : Signal} (h : Linked seen (pre ++ r :: post))
    {n : String} (hn : r.RefersTo n) : n ∈ seen ++ pre.map Signal.name := by
  induction pre generalizing seen with
  | nil => simpa using h.1 n hn
  | cons q pre ih => simpa [List.append_assoc] using ih h.2

/-- A list of signals without any reference. -/
theorem of_no_reference (h : ∀ r ∈ rs, ∀ n, ¬ r.RefersTo n) : Linked seen rs := by
  induction rs generalizing seen with
  | nil => trivial
  | cons r rs ih =>
    exact ⟨fun n hn => (h r List.mem_cons_self n hn).elim,
      ih fun q hq => h q (List.mem_cons_of_mem r hq)⟩

end Linked

/-! ## The signals of one selection -/

namespace Component
variable {k : Component} {view : String} {scaleName : Channel → Option String}

/-- The fields that the component captures. -/
def fields (k : Component) : List Field := k.projections.map Projection.field

/-- The signals without the composite. -/
def ownSignals (k : Component) (view : String) (scaleName : Channel → Option String) :
    List Signal :=
  match k.type with
  | .interval => k.intervalSignals view scaleName
  | .single | .multi => k.pointSignals view

theorem signals_eq (k : Component) (view : String) (scaleName : Channel → Option String) :
    k.signals view scaleName = k.ownSignals view scaleName ++
      if k.pushOuter then [] else [Signal.composite k.name k.fields] := by
  have hentries : k.dataEntries = compositeEntries k.name k.fields := by
    rw [dataEntries, compositeEntries, fields, List.map_map]
    rfl
  have hsignals : k.signals view scaleName =
      if k.pushOuter then k.ownSignals view scaleName
      else k.ownSignals view scaleName ++ [.following k.name (compositeUpdate k.dataEntries)] := rfl
  rw [hsignals, hentries]
  split
  · rw [List.append_nil]
  · rfl

theorem mem_brushed {b : Channel × Field} :
    b ∈ k.brushed ↔ ∃ p ∈ k.projections, p.channel = some b.1 ∧ p.field = b.2 := by
  simp only [brushed, List.mem_filterMap, Option.map_eq_some_iff]
  constructor
  · rintro ⟨p, hp, c, hc, rfl⟩
    exact ⟨p, hp, hc, rfl⟩
  · rintro ⟨p, hp, hc, hf⟩
    exact ⟨p, hp, b.1, hc, by rw [hf]⟩

/-! ### Intervals -/

theorem linked_brushSignals (c : Channel) (f : Field) :
    Linked [] (k.brushSignals scaleName c f) := by
  have hplain : ∀ {r : Signal}, r.update? = none → r.sources = [] → Linked [] [r] := by
    intro r hu hs
    refine Linked.of_no_reference fun q hq n hn => ?_
    obtain rfl := List.mem_singleton.mp hq
    rw [Signal.refersTo_iff_of_update? hu, hs] at hn
    cases hn
  rw [brushSignals]
  split
  · split
    · exact hplain rfl rfl
    · exact hplain rfl rfl
  · -- the extent in the data waits for the one in pixels, which stands before it
    refine Linked.append (hplain rfl rfl) ⟨fun n hn => ?_, trivial⟩
    rwa [Signal.refersTo_iff_of_update? rfl] at hn

theorem data_mem_brushSignals (scaleName : Channel → Option String) (c : Channel) (f : Field) :
    dataSignalName k.name f ∈ (k.brushSignals scaleName c f).map Signal.name := by
  rw [brushSignals]
  split
  · split
    · exact List.mem_singleton.mpr rfl
    · exact List.mem_singleton.mpr rfl
  · exact List.mem_cons_of_mem _ (List.mem_singleton.mpr rfl)

/-- A captured channel gives no composite, and pushes only if it is driven from the
outermost scope. -/
theorem mem_brushSignals {c : Channel} {f : Field} {r : Signal}
    (h : r ∈ k.brushSignals scaleName c f) :
    r.update? = none ∧
      ∀ n, r = .push n → k.pushOuter = true ∧ k.drives c = true ∧ n = dataSignalName k.name f := by
  rw [brushSignals] at h
  split at h
  · split at h
    · obtain rfl := List.mem_singleton.mp h
      refine ⟨rfl, fun n hn => ?_⟩
      cases hn
      exact ⟨‹_›, ‹_›, rfl⟩
    · obtain rfl := List.mem_singleton.mp h
      exact ⟨rfl, nofun⟩
  · rcases List.mem_cons.mp h with rfl | h
    · exact ⟨rfl, nofun⟩
    · obtain rfl := List.mem_singleton.mp h
      exact ⟨rfl, nofun⟩

theorem data_mem_brushed {b : Channel × Field} (hb : b ∈ k.brushed) :
    dataSignalName k.name b.2 ∈
      (k.brushed.flatMap fun b => k.brushSignals scaleName b.1 b.2).map Signal.name := by
  obtain ⟨r, hr, hname⟩ := List.mem_map.mp (data_mem_brushSignals scaleName b.1 b.2)
  exact List.mem_map.mpr ⟨r, List.mem_flatMap.mpr ⟨b, hb, hr⟩, hname⟩

theorem linked_intervalSignals : Linked [] (k.intervalSignals view scaleName) := by
  refine Linked.append (Linked.flatMap fun b _ => linked_brushSignals b.1 b.2)
    ⟨fun n hn => ?_, trivial⟩
  rw [Signal.refersTo_iff_of_update? rfl] at hn
  -- the tuple waits for the data of all captured channels
  have hmem : n ∈ k.brushed.map fun b => dataSignalName k.name b.2 := by
    simpa [intervalTuple, Signal.sources, Events.sources] using hn
  obtain ⟨b, hb, rfl⟩ := List.mem_map.mp hmem
  exact data_mem_brushed hb

/-! ### Points -/

/-- A signal for a field of a point reads the tuple, and does nothing else. -/
theorem mem_pointSignals {r : Signal} (h : r ∈ k.pointSignals view) :
    r.sources = [] ∧ ¬ r.IsLiteral ∧ ∀ n, r ≠ .push n := by
  rcases List.mem_cons.mp h with rfl | h
  · exact ⟨rfl, Signal.not_isLiteral_of_update? rfl, nofun⟩
  · obtain ⟨i, hi, rfl⟩ := List.mem_mapIdx.mp h
    refine ⟨rfl, ?_, nofun⟩
    rintro ⟨es, he⟩
    exact append_null_ne_compositeUpdate
      (k.tupleName ++ " ? " ++ k.tupleName ++ ".values[" ++ i.repr) es (Option.some.inj he)

theorem linked_pointSignals : Linked [] (k.pointSignals view) := by
  refine Linked.of_no_reference fun r hr n hn => ?_
  obtain ⟨hsources, hliteral, _⟩ := mem_pointSignals hr
  rw [Signal.refersTo_iff_of_not_isLiteral hliteral, hsources] at hn
  cases hn

theorem data_mem_pointSignals {f : Field} (hf : f ∈ k.fields) :
    dataSignalName k.name f ∈ (k.pointSignals view).map Signal.name := by
  obtain ⟨p, hp, rfl⟩ := List.mem_map.mp hf
  obtain ⟨i, hi, rfl⟩ := List.mem_iff_getElem.mp hp
  refine List.mem_cons_of_mem _ (List.mem_map.mpr ⟨_, List.mem_mapIdx.mpr ⟨i, hi, rfl⟩, rfl⟩)

/-! ### Any type -/

theorem linked_ownSignals : Linked [] (k.ownSignals view scaleName) := by
  rw [ownSignals]
  split
  · exact linked_intervalSignals
  · exact linked_pointSignals
  · exact linked_pointSignals

/-- There is a data signal for each captured field. -/
theorem data_mem_ownSignals {tree : ViewTree} (hd : k.DeclaredIn tree) {f : Field}
    (hf : f ∈ k.fields) :
    dataSignalName k.name f ∈ (k.ownSignals view scaleName).map Signal.name := by
  rw [ownSignals]
  split
  · rename_i htype
    obtain ⟨p, hp, rfl⟩ := List.mem_map.mp hf
    -- an interval captures through channels
    obtain ⟨c, hc, _⟩ : ∃ c, p.channel = some c ∧ c.isPositional = true := by
      simpa [Projection.isPositional, Option.any_eq_true] using hd.positional htype p hp
    have hb : (c, p.field) ∈ k.brushed := mem_brushed.mpr ⟨p, hp, hc, rfl⟩
    rw [intervalSignals, List.map_append]
    exact List.mem_append_left _ (data_mem_brushed hb)
  · exact data_mem_pointSignals hf
  · exact data_mem_pointSignals hf

theorem mem_ownSignals {r : Signal} (h : r ∈ k.ownSignals view scaleName) :
    ¬ r.IsLiteral ∧
      ∀ n, r = .push n → k.pushOuter = true ∧ ∃ f ∈ k.pushedFields, n = dataSignalName k.name f := by
  have hpoint : r ∈ k.pointSignals view → ¬ r.IsLiteral ∧
      ∀ n, r = .push n → k.pushOuter = true ∧ ∃ f ∈ k.pushedFields, n = dataSignalName k.name f :=
    fun h => ⟨(mem_pointSignals h).2.1, fun n hn => ((mem_pointSignals h).2.2 n hn).elim⟩
  rw [ownSignals] at h
  split at h
  · rcases List.mem_append.mp h with h | h
    · obtain ⟨b, hb, h⟩ := List.mem_flatMap.mp h
      obtain ⟨hupdate, hpush⟩ := mem_brushSignals h
      refine ⟨Signal.not_isLiteral_of_update? hupdate, fun n hn => ?_⟩
      obtain ⟨houter, hdrives, rfl⟩ := hpush n hn
      obtain ⟨p, hp, hc, hf⟩ := mem_brushed.mp hb
      have hpushes : k.pushes p = true := by simp [pushes, houter, hc, hdrives]
      exact ⟨houter, b.2, List.mem_map.mpr ⟨p, List.mem_filter.mpr ⟨hp, hpushes⟩, hf⟩, rfl⟩
    · obtain rfl := List.mem_singleton.mp h
      exact ⟨Signal.not_isLiteral_of_update? rfl, nofun⟩
  · exact hpoint h
  · exact hpoint h

theorem linked_signals {tree : ViewTree} (hd : k.DeclaredIn tree) :
    Linked [] (k.signals view scaleName) := by
  rw [signals_eq]
  refine Linked.append linked_ownSignals ?_
  split
  · trivial
  · refine ⟨fun n hn => ?_, trivial⟩
    obtain ⟨f, hf, rfl⟩ := Signal.refersTo_composite.mp hn
    exact data_mem_ownSignals hd hf

/-- The composite of a selection stands on its view unless it lives in the outermost
scope, and lists all captured fields. -/
theorem composite_mem_signals {s : String} {fs : List Field} :
    Signal.composite s fs ∈ k.signals view scaleName ↔
      k.pushOuter = false ∧ k.name = s ∧ k.fields = fs := by
  rw [signals_eq, List.mem_append]
  constructor
  · rintro (h | h)
    · exact ((mem_ownSignals h).1 (Signal.isLiteral_composite s fs)).elim
    · split at h
      · cases h
      · obtain ⟨rfl, rfl⟩ := composite_inj (List.mem_singleton.mp h)
        exact ⟨Bool.not_eq_true _ ▸ ‹_›, rfl, rfl⟩
  · rintro ⟨houter, rfl, rfl⟩
    rw [houter]
    exact Or.inr (List.mem_singleton.mpr rfl)

theorem eq_composite_of_isLiteral {r : Signal} (h : r ∈ k.signals view scaleName)
    (hr : r.IsLiteral) : r = Signal.composite k.name k.fields := by
  rw [signals_eq] at h
  rcases List.mem_append.mp h with h | h
  · exact absurd hr (mem_ownSignals h).1
  · split at h
    · cases h
    · exact List.mem_singleton.mp h

theorem push_mem_signals {n : String} (h : Signal.push n ∈ k.signals view scaleName) :
    k.pushOuter = true ∧ ∃ f ∈ k.pushedFields, n = dataSignalName k.name f := by
  rw [signals_eq] at h
  rcases List.mem_append.mp h with h | h
  · exact (mem_ownSignals h).2 n rfl
  · split at h
    · cases h
    · cases List.mem_singleton.mp h

end Component

/-! ## The signals of a view -/

theorem unitSignals_ok {tree : ViewTree} {scales : ScaleTable} {v : ViewId} {ks : List Component}
    {rs : List Signal} (h : unitSignals tree scales v ks = .ok rs) :
    ∃ view scaleName, rs = ks.flatMap fun k => k.signals view scaleName := by
  rw [unitSignals] at h
  split at h
  · rename_i hempty
    obtain rfl := List.isEmpty_iff.mp hempty
    exact ⟨"", fun _ => none, (Except.ok.inj h).symm⟩
  · obtain ⟨view, _, h⟩ := Except.bind_eq_ok.mp h
    obtain ⟨scope, _, h⟩ := Except.bind_eq_ok.mp h
    exact ⟨view, _, (Except.ok.inj h).symm⟩

theorem linked_unitSignals {tree : ViewTree} {scales : ScaleTable} {v : ViewId}
    {ks : List Component} {rs : List Signal} (h : unitSignals tree scales v ks = .ok rs)
    (hks : ∀ k ∈ ks, k.DeclaredIn tree) : Linked [] rs := by
  obtain ⟨view, scaleName, rfl⟩ := unitSignals_ok h
  exact Linked.flatMap fun k hk => Component.linked_signals (hks k hk)

end BrushLink
