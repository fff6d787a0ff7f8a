import BrushLink.Proofs.View.Additions
import BrushLink.Proofs.View.Repetition
import BrushLink.Proofs.View.Sites

/-! # The tree realizes its specification

The tree of a specification has a view for each of its sites and no others, and beneath each
view lies what lies beneath the site (`Realizes`).  An expansion leaves all views alone that
were there before, but for one further child of the view under which it adds (`Raised`), so
what one part of a site has come to is not touched by the parts that follow.

Since views are created in the order of the walk, the view that was created at a place is that
of the site that is listed there (`ofSpec_sites`).  For a repeated template this says what the
children of the view are: one for each pair of a row and a column, row by row
(`ofSpec_unrolled`).
-/
namespace BrushLink

namespace ViewTree
variable {t t' : ViewTree} {s q : Site} {v w : ViewId} {parent : Option ViewId}

/-- The view, and all that lies beneath it, is what a site asks for. -/
inductive Realizes (t : ViewTree) : ViewId → Site → Prop
  | mk {v : ViewId} {n : ViewNode} {s : Site} (hv : t.get? v = some n) (hname : n.name = s.name)
      (hcontent : s.content = .ok n.content)
      (hlength : (t.childNodes v).length = s.parts.length)
      (hparts : ∀ c q, (c, q) ∈ (t.childNodes v).zip s.parts → Realizes t c.1 q) : Realizes t v s

theorem Realizes.children (h : t.Realizes v s) :
    List.Forall₂ (fun c q => t.Realizes c.1 q) (t.childNodes v) s.parts := by
  cases h with
  | mk _ _ _ hlength hparts => exact List.forall₂_iff_zip.mpr ⟨hlength, fun {c q} => hparts c q⟩

/-- A realized site stays so while neither its view nor those beneath get further children. -/
theorem Realizes.mono (h : t.Realizes v s) (hw : t.WellFormed)
    (hkept : ∀ {w n}, t.get? w = some n → t'.get? w = some n)
    (hchildren : ∀ w, v ≤ w → w < t.size → t'.childNodes w = t.childNodes w) :
    t'.Realizes v s := by
  induction h with
  | @mk v n s hv hname hcontent hlength hparts ih =>
    have hsame := hchildren v (Nat.le_refl v) (lt_size_of_get? hv)
    refine .mk (hkept hv) hname hcontent (by rw [hsame, hlength]) fun c q hcq => ?_
    rw [hsame] at hcq
    obtain ⟨hc, hp⟩ := mem_childNodes.mp (List.of_mem_zip hcq).1
    refine ih c q hcq fun w hle => hchildren w ?_
    exact Nat.le_trans (Nat.le_of_lt (hw.parent_lt hc hp)) hle

/-! ## What an expansion changes -/

/-- What comes of expanding a site: it is realized, and of the views that were there before
only its parent gets a further child. -/
structure Raised (t : ViewTree) (s : Site) (parent : Option ViewId) (t' : ViewTree) : Prop where
  children : ∀ v < t.size, ∃ n, t'.childNodes v =
    t.childNodes v ++ if parent = some v then [(t.size, n)] else []
  realizes : t'.Realizes t.size s

/-- What comes of expanding sites beneath a view, one after the other. -/
structure RaisedAll (t : ViewTree) (v : ViewId) (qs : List Site) (t' : ViewTree) : Prop where
  kept : ∀ {w n}, t.get? w = some n → t'.get? w = some n
  others : ∀ w < t.size, w ≠ v → t'.childNodes w = t.childNodes w
  own : ∃ cs, t'.childNodes v = t.childNodes v ++ cs ∧
    List.Forall₂ (fun c q => t'.Realizes c.1 q) cs qs

theorem RaisedAll.refl (t : ViewTree) (v : ViewId) : t.RaisedAll v [] t :=
  ⟨id, fun _ _ _ => rfl, [], (List.append_nil _).symm, .nil⟩

/-- The first of several sites stays realized while the others follow. -/
theorem RaisedAll.cons {t₁ : ViewTree} {qs : List Site} (hv : v < t.size) (hg : t.Grows t₁)
    (hw : t₁.WellFormed) (h : t.Raised q (some v) t₁) (hrest : t₁.RaisedAll v qs t') :
    t.RaisedAll v (q :: qs) t' := by
  constructor
  case kept => exact fun hn => hrest.kept (hg.get? hn)
  case others =>
    intro w hlt hne
    obtain ⟨m, hm⟩ := exists_get?_of_lt hlt
    obtain ⟨n, hn⟩ := h.children w hlt
    rw [hrest.others w (lt_size_of_get? (hg.get? hm)) hne, hn, if_neg, List.append_nil]
    exact fun he => hne (Option.some.inj he).symm
  case own =>
    obtain ⟨n, hn⟩ := h.children v hv
    obtain ⟨cs, hcs, hall⟩ := hrest.own
    refine ⟨(t.size, n) :: cs, ?_, .cons ?_ hall⟩
    · rw [hcs, hn, if_pos rfl, List.append_assoc]
      rfl
    · -- the views that realize it came after `v`, which alone gets further children
      refine h.realizes.mono hw hrest.kept fun w hle hlt => hrest.others w hlt ?_
      exact Nat.ne_of_gt (Nat.lt_of_lt_of_le hv hle)

theorem expandParts_raised {qs : List Site} (hstem : ∀ q ∈ qs, q.stem = q.name ++ "_")
    (hqs : ∀ q ∈ qs, ∀ (t t' : ViewTree) (parent : Option ViewId), t.WellFormed →
      q.stem = (if t.size = root then "" else q.name ++ "_") → t.Vacant (q.place parent) →
        t.expand (q.place parent) q.spec = .ok t' → t.Raised q parent t')
    (hw : t.WellFormed) (ht : ∀ q ∈ qs, t.TakesChild v) (h : t.expandParts v qs = .ok t') :
    t.RaisedAll v qs t' := by
  induction qs generalizing t with
  | nil =>
    obtain rfl := Except.ok.inj h
    exact .refl t v
  | cons q qs ih =>
    rw [expandParts, List.foldlM_cons] at h
    obtain ⟨t₁, h₁, h⟩ := Except.bind_eq_ok.mp h
    have htakes := ht q List.mem_cons_self
    have hvacant : t.Vacant (q.place (some v)) := htakes.vacant rfl
    have hplanted := expand_planted q.spec t t₁ _ hvacant.parent h₁
    have hw₁ := hplanted.grows.wellFormed hw
    have hfirst := hqs q List.mem_cons_self t t₁ (some v) hw
      (htakes.stem_eq (hstem q List.mem_cons_self)) hvacant h₁
    have hrest := ih (fun r hr => hstem r (List.mem_cons_of_mem q hr))
      (fun r hr => hqs r (List.mem_cons_of_mem q hr)) hw₁
      (fun _ _ => hplanted.takesChild rfl htakes) h
    obtain ⟨n, _, hn, _⟩ := htakes.composite
    exact .cons (lt_size_of_get? hn) hplanted.grows hw₁ hfirst hrest

/-- The last view has no children yet. -/
theorem childNodes_last (hw : t.WellFormed) (h : t.size ≤ v + 1) : t.childNodes v = [] := by
  refine List.eq_nil_iff_forall_not_mem.mpr fun c hc => ?_
  obtain ⟨hc, hp⟩ := mem_childNodes.mp hc
  have hlt := Nat.lt_of_le_of_lt (hw.parent_lt hc hp) (Nat.lt_of_lt_of_le (lt_size_of_get? hc) h)
  exact Nat.lt_irrefl _ hlt

theorem expand_raised (s : Site) (t t' : ViewTree) (parent : Option ViewId) (hw : t.WellFormed)
    (hstem : s.stem = if t.size = root then "" else s.name ++ "_")
    (hv : t.Vacant (s.place parent)) (h : t.expand (s.place parent) s.spec = .ok t') :
    t.Raised s parent t' := by
  induction s using Site.induction_parts generalizing t t' parent with
  | parts s ih =>
    rw [expand_eq hstem] at h
    obtain ⟨_, hname, h⟩ := Except.bind_eq_ok.mp h
    obtain ⟨content, hcontent, h⟩ := Except.bind_eq_ok.mp h
    obtain ⟨t₁, h₁, h⟩ := Except.bind_eq_ok.mp h
    obtain ⟨hnodes, haccepts⟩ := addAt_ok h₁
    have hw₁ : t₁.WellFormed := hnodes ▸ hw.append haccepts
    have hsize : t₁.size = t.size + 1 := by rw [hnodes, size, List.length_append]; rfl
    have hall := expandParts_raised (fun q hq => Site.stem_of_mem_parts hq) ih hw₁
      (fun q hq => takesChild_of_content hname hv hcontent h₁ hq) h
    constructor
    case children =>
      intro v hlt
      have hlt₁ : v < t₁.size := Nat.lt_of_lt_of_eq (Nat.lt_succ_of_lt hlt) hsize.symm
      refine ⟨⟨s.name, parent, content⟩, ?_⟩
      rw [hall.others v hlt₁ (Nat.ne_of_lt hlt), hnodes]
      exact t.childNodes_append ⟨s.name, parent, content⟩ v
    case realizes =>
      obtain ⟨cs, hcs, hforall⟩ := hall.own
      rw [childNodes_last hw₁ (Nat.le_of_eq hsize), List.nil_append] at hcs
      have htop : t₁.get? t.size = some ⟨s.name, parent, content⟩ :=
        hnodes ▸ get?_append.mpr (Or.inr ⟨rfl, rfl⟩)
      refine .mk (hall.kept htop) rfl hcontent ?_ fun c q hcq => ?_
      · rw [hcs, hforall.length_eq]
      · exact (List.forall₂_iff_zip.mp hforall).2 (hcs ▸ hcq)

/-! ## The tree of a specification -/

theorem ofSpec_realizes {spec : ViewSpec} (h : ofSpec spec = .ok t) :
    t.Realizes root spec.site :=
  (expand_raised spec.site empty t none empty_wellFormed rfl (empty_vacant _ _) h).realizes

/-- The walk from a view meets what is beneath its site. -/
theorem Realizes.walkFrom (hw : t.WellFormed) (h : t.Realizes v s) :
    List.Forall₂ t.Realizes (t.walkFrom v) s.all := by
  induction h with
  | @mk v n s hv hname hcontent hlength hparts ih =>
    have hall : List.Forall₂ (fun c q => List.Forall₂ t.Realizes (t.walkFrom c.1) q.all)
        (t.childNodes v) s.parts := List.forall₂_iff_zip.mpr ⟨hlength, fun {c q} => ih c q⟩
    rw [walkFrom_eq hw hv, Site.all_eq, List.flatMap_map]
    exact .cons (.mk hv hname hcontent hlength hparts) (List.rel_flatMap hall fun _ _ h => h)

/-- Views are created as the sites are listed. -/
theorem ofSpec_sites {spec : ViewSpec} (h : ofSpec spec = .ok t) :
    List.Forall₂ t.Realizes (List.range t.size) spec.sites := by
  have hw := (ofSpec_wellFormed h).1
  have hall := (ofSpec_realizes h).walkFrom hw
  rwa [← preorder_eq_walkFrom, preorder_eq_range hw (ofSpec_depthFirst h)] at hall

/-- The view at a place realizes the site at that place. -/
theorem realizes_of_sites {spec : ViewSpec} (h : ofSpec spec = .ok t)
    (hs : spec.sites[v]? = some s) : t.Realizes v s := by
  obtain ⟨u, hu, hrealizes⟩ := exists_getElem?_of_forall₂ (ofSpec_sites h) hs
  obtain ⟨_, rfl⟩ := List.getElem?_eq_some_iff.mp hu
  rwa [List.getElem_range] at hrealizes

theorem exists_site_of_lt {spec : ViewSpec} (h : ofSpec spec = .ok t) (hv : v < t.size) :
    ∃ s, spec.sites[v]? = some s := by
  have hlength := (ofSpec_sites h).length_eq
  rw [List.length_range] at hlength
  exact ⟨_, List.getElem?_eq_getElem (hlength ▸ hv)⟩

end ViewTree

/-! ## Sites and their contents -/

/-- In the unit view at a place, an entry that names a field or refers to one has the field
that this stands for. -/
theorem Place.field?_of_source {p : Place} {head : ViewHead} {mark : Mark} {u : UnitView}
    {c : Channel} {d : ChannelDef FieldSource} {source : FieldSource}
    (hu : p.unitView head mark = .ok u) (hc : head.encoding.get? c = some (.single d))
    (hd : d.field = some source) : ∃ f, p.field? source = some f ∧ u.field? c = some f := by
  obtain ⟨hnone, rfl⟩ := unitView_eq_ok.mp hu
  have hfield : UnitView.field? ⟨mark, head.encoding.filterMap fun _ => p.channelDef?,
      head.selections, p.repeater⟩ c = p.field? source := by
    rw [UnitView.field?, Table.get?_filterMap, hc]
    simp [channelDef?, hd]
  rw [hfield]
  cases source with
  | named f => exact ⟨f, rfl, rfl⟩
  | repeated axis =>
    have hmem : ChannelSpec.single d ∈ head.encoding.values :=
      List.mem_map.mpr ⟨_, Table.get?_eq_some_iff.mp hc, rfl⟩
    have hsettled := List.findSome?_eq_none_iff.mp hnone _ hmem
    cases hf : p.field? (.repeated axis) with
    | none =>
      have hopen : p.repeatedField? axis = none := hf
      simp [danglingAxis?, hd, hopen] at hsettled
    | some f => exact ⟨f, rfl, rfl⟩

namespace Site
variable {s q : Site}

/-- A site that is no repetition is surrounded by what its parts are surrounded by. -/
theorem around_of_mem_parts (hs : ∀ head axes template, s.spec ≠ .repeated head axes template)
    (h : q ∈ s.parts) : q.around = s.around := by
  obtain ⟨name, stem, around, spec⟩ := s
  cases spec with
  | unit _ _ | malformed _ _ => cases h
  | layered _ children | concatenated _ children =>
    obtain ⟨_, _, _, rfl⟩ := exists_of_mem_numbered h
    rfl
  | repeated head axes template => exact absurd rfl (hs head axes template)
  | faceted _ template =>
    rw [List.mem_singleton.mp h]
    rfl

theorem stem_of_mem_all (hs : s.stem = s.name ++ "_") (h : q ∈ s.all) :
    q.stem = q.name ++ "_" := by
  induction s using induction_parts with
  | parts s ih =>
    rw [all_eq] at h
    rcases List.mem_cons.mp h with rfl | h
    · exact hs
    · obtain ⟨p, hp, h⟩ := List.mem_flatMap.mp h
      exact ih p hp (stem_of_mem_parts hp) h

theorem content_eq_unit {u : UnitView} (h : s.content = .ok (.unit u)) :
    ∃ head mark, s.spec = .unit head mark ∧ (s.place none).unitView head mark = .ok u := by
  obtain ⟨name, stem, around, spec⟩ := s
  cases spec with
  | unit head mark =>
    obtain ⟨u', hu, he⟩ := Except.map_eq_ok.mp h
    cases he
    exact ⟨head, mark, rfl, hu⟩
  | layered _ _ | concatenated _ _ | repeated _ _ _ | faceted _ _ | malformed _ _ => cases h

theorem kind_of_content {k : CompositeView} (h : s.content = .ok (.composite k)) :
    k.kind = .repetition ↔ ∃ head axes template, s.spec = .repeated head axes template := by
  obtain ⟨name, stem, around, spec⟩ := s
  cases spec with
  | unit head mark =>
    obtain ⟨u, _, he⟩ := Except.map_eq_ok.mp h
    cases he
  | repeated head axes template =>
    cases h
    exact iff_of_true rfl ⟨head, axes, template, rfl⟩
  | layered _ _ | concatenated _ _ | faceted _ _ =>
    cases h
    simp
  | malformed _ _ => cases h

end Site

/-! ## Repetitions -/

/-- In a table that is listed row by row, the place of a row and a column. -/
theorem getElem?_flatMap_map {α β γ : Type} {rs : List α} {cs : List β} (f : α → β → γ)
    {i j : Nat} {r : α} {c : β} (hr : rs[i]? = some r) (hc : cs[j]? = some c) :
    (rs.flatMap fun r => cs.map (f r))[i * cs.length + j]? = some (f r c) := by
  induction rs generalizing i with
  | nil => cases hr
  | cons r' rs ih =>
    have hj : j < cs.length := (List.getElem?_eq_some_iff.mp hc).1
    rw [List.flatMap_cons]
    cases i with
    | zero =>
      obtain rfl := Option.some.inj hr
      rw [List.getElem?_append_left (by simpa using hj), Nat.zero_mul, Nat.zero_add,
        List.getElem?_map, hc, Option.map_some]
    | succ i =>
      rw [List.getElem?_cons_succ] at hr
      have hskip : (i + 1) * cs.length + j - (cs.map (f r')).length = i * cs.length + j := by
        rw [List.length_map, Nat.succ_mul]
        omega
      rw [List.getElem?_append_right (by rw [List.length_map, Nat.succ_mul]; omega), hskip]
      exact ih hr

namespace RepeatAxes

theorem length_instances (axes : RepeatAxes) :
    axes.instances.length = (axes.stops .row).length * (axes.stops .column).length := by
  rw [instances_eq, List.length_flatMap]
  simp

theorem getElem?_instances {axes : RepeatAxes} {i j : Nat} {r c : Option (String × Nat)}
    (hr : (axes.stops .row)[i]? = some r) (hc : (axes.stops .column)[j]? = some c) :
    axes.instances[i * (axes.stops .column).length + j]? = some (instanceAt r c) := by
  rw [instances_eq]
  exact getElem?_flatMap_map instanceAt hr hc

end RepeatAxes

/-- The field that an entry of an encoding stands for in the instance at a stop of the rows and
one of the columns. -/
def FieldSource.inInstance (r c : Option (String × Nat)) : FieldSource → Option Field
  | .named f => some f
  | .repeated .row => r.map fun stop => ⟨stop.1⟩
  | .repeated .column => c.map fun stop => ⟨stop.1⟩

theorem Place.field?_eq_inInstance {p : Place} {r c : Option (String × Nat)}
    (h : p.repeater = some ⟨r.map Prod.fst, c.map Prod.fst⟩) (source : FieldSource) :
    p.field? source = source.inInstance r c := by
  cases source with
  | named f => rfl
  | repeated axis =>
    cases axis <;>
      simp [field?, repeatedField?, h, Repeater.value, FieldSource.inInstance, Function.comp_def]

namespace ViewTree
variable {t : ViewTree} {s : Site} {v w : ViewId}

/-- The view is that of a repeated template. -/
def Repeats (t : ViewTree) (v : ViewId) : Prop :=
  ∃ n k, t.get? v = some n ∧ n.content = .composite k ∧ k.kind = .repetition

namespace Realizes

theorem name_eq (h : t.Realizes v s) : t.name v = .ok s.name := by
  cases h with
  | mk hv hname => rw [name_of_get? hv, hname]

theorem repeats_iff (h : t.Realizes v s) :
    t.Repeats v ↔ ∃ head axes template, s.spec = .repeated head axes template := by
  cases h with
  | @mk _ n _ hv _ hcontent =>
    constructor
    · rintro ⟨n', k, hn', hk, hkind⟩
      obtain rfl := Option.some.inj (hv.symm.trans hn')
      exact (Site.kind_of_content (hk ▸ hcontent)).mp hkind
    · rintro ⟨head, axes, template, hspec⟩
      rw [Site.content, hspec] at hcontent
      exact ⟨n, _, hv, (Except.ok.inj hcontent).symm, rfl⟩

/-- Beneath a view, as far down as nothing is repeated, all is surrounded by the same. -/
theorem exists_around_eq (h : t.Realizes v s) (hin : t.Within w v)
    (hnone : ∀ a, t.Within w a → t.Within a v → ¬ t.Repeats a) :
    ∃ q, t.Realizes w q ∧ q.around = s.around := by
  induction hin with
  | refl => exact ⟨s, h, rfl⟩
  | @step w p v n hw hp hin ih =>
    obtain ⟨q, hq, haround⟩ := ih h fun a ha => hnone a (.step hw hp ha)
    obtain ⟨r, hr⟩ := exists_zip_of_mem_left hq.children (mem_childNodes.mpr ⟨hw, hp⟩)
    refine ⟨r, (List.forall₂_iff_zip.mp hq.children).2 hr, ?_⟩
    have hspec : ∀ head axes template, q.spec ≠ .repeated head axes template :=
      fun head axes template he =>
        hnone p (.step hw hp (.refl p)) hin (hq.repeats_iff.mpr ⟨head, axes, template, he⟩)
    rw [Site.around_of_mem_parts hspec (List.of_mem_zip hr).2, haround]

theorem unitView_eq (h : t.Realizes v s) {u : UnitView} (hu : t.unit? v = some u) :
    ∃ head mark, s.spec = .unit head mark ∧ (s.place none).unitView head mark = .ok u := by
  cases h with
  | mk hv _ hcontent =>
    obtain ⟨n, hn, hunit⟩ := Option.bind_eq_some_iff.mp hu
    obtain rfl := Option.some.inj (hv.symm.trans hn)
    rw [ViewContent.unit?_eq_some_iff.mp hunit] at hcontent
    exact Site.content_eq_unit hcontent

/-- A unit view remembers the innermost instance around its site. -/
theorem repeater_eq (h : t.Realizes v s) {u : UnitView} (hu : t.unit? v = some u) :
    u.repeater = s.around.head? := by
  obtain ⟨head, mark, _, hview⟩ := h.unitView_eq hu
  rw [(Place.unitView_eq_ok.mp hview).2]
  rfl

/-- A unit view that remembers an instance shows the fields of its row and column. -/
theorem field?_of_repeater (h : t.Realizes v s) {u : UnitView} {r c : Option (String × Nat)}
    (hu : t.unit? v = some u) (hr : u.repeater = some ⟨r.map Prod.fst, c.map Prod.fst⟩)
    {head : ViewHead} {mark : Mark} (hspec : s.spec = .unit head mark) {ch : Channel}
    {d : ChannelDef FieldSource} {source : FieldSource}
    (hd : head.encoding.get? ch = some (.single d)) (hsource : d.field = some source) :
    ∃ f, source.inInstance r c = some f ∧ u.field? ch = some f := by
  obtain ⟨head', mark', hspec', hview⟩ := h.unitView_eq hu
  obtain ⟨rfl, rfl⟩ := ViewSpec.unit.inj (hspec'.symm.trans hspec)
  obtain ⟨f, hf, hfield⟩ := Place.field?_of_source hview hd hsource
  have hplace : (s.place none).repeater = some ⟨r.map Prod.fst, c.map Prod.fst⟩ :=
    (h.repeater_eq hu).symm.trans hr
  rw [Place.field?_eq_inInstance hplace] at hf
  exact ⟨f, hf, hfield⟩

/-- So do the unit views beneath a view, as far down as nothing is repeated. -/
theorem repeater_of_within (h : t.Realizes v s) (w : ViewId) (u : UnitView)
    (hu : t.unit? w = some u) (hin : t.Within w v)
    (hnone : ∀ a, t.Within w a → t.Within a v → ¬ t.Repeats a) :
    u.repeater = s.around.head? := by
  obtain ⟨q, hq, haround⟩ := h.exists_around_eq hin hnone
  rw [hq.repeater_eq hu, haround]

end Realizes

theorem stem_of_sites {spec : ViewSpec} (h : spec.sites[v]? = some s) :
    s.stem = if v = root then "" else s.name ++ "_" := by
  rw [ViewSpec.sites, Site.all_eq] at h
  cases v with
  | zero =>
    obtain rfl := Option.some.inj h
    rfl
  | succ v =>
    obtain ⟨q, hq, hs⟩ := List.mem_flatMap.mp (List.mem_of_getElem? h)
    exact Site.stem_of_mem_all (Site.stem_of_mem_parts hq) hs

/-- A view is the instance of a template at a stop of the rows and one of the columns. -/
structure IsInstance (t : ViewTree) (u : ViewId) (name : String) (around : List Repeater)
    (template : ViewSpec) (r c : Option (String × Nat)) : Prop where
  named : t.name u = .ok name
  /-- It is what the template comes to with the two fields. -/
  realizes : t.Realizes u
    ⟨name, name ++ "_", ⟨r.map Prod.fst, c.map Prod.fst⟩ :: around, template⟩
  /-- The unit views beneath remember the two fields, unless they are inside of a further
  repetition. -/
  units : ∀ w x, t.unit? w = some x → t.Within w u →
    (∀ a, t.Within w a → t.Within a u → ¬ t.Repeats a) →
      x.repeater = some ⟨r.map Prod.fst, c.map Prod.fst⟩
  /-- What they show is what their specification names, where it refers to the row or the column
  the field of this instance. -/
  fields : ∀ w x, t.unit? w = some x → t.Within w u →
    (∀ a, t.Within w a → t.Within a u → ¬ t.Repeats a) →
      ∀ q head mark, t.Realizes w q → q.spec = .unit head mark →
        ∀ ch d source, head.encoding.get? ch = some (.single d) → d.field = some source →
          ∃ f, source.inInstance r c = some f ∧ x.field? ch = some f

/-- **Repetition is unrolled completely and in order.**  The views of the tree are the sites of
the specification, and the repetitions among them are those of repeated templates.  Such a view
has one child for each pair of a row and a column, rows outside and columns inside, an axis
without a list counting as a single stop.  Each child is the instance of the template with the
fields of its row and column, which the references beneath become, and is called after them,
whatever the template is called. -/
theorem ofSpec_unrolled {spec : ViewSpec} (h : ofSpec spec = .ok t) :
    t.size = spec.sites.length ∧
    (∀ v, t.Repeats v ↔ ∃ s head axes template,
      spec.sites[v]? = some s ∧ s.spec = .repeated head axes template) ∧
    ∀ v s head axes template, spec.sites[v]? = some s → s.spec = .repeated head axes template →
      ∃ cs, t.name v = .ok s.name ∧ t.children v = .ok cs ∧
        cs.length = (axes.stops .row).length * (axes.stops .column).length ∧
        ∀ (i j : Nat) (r c : Option (String × Nat)),
          (axes.stops .row)[i]? = some r → (axes.stops .column)[j]? = some c →
            ∃ u, cs[i * (axes.stops .column).length + j]? = some u ∧
              t.IsInstance u ((if v = root then "" else s.name ++ "_") ++
                ("repeat" ++ RepeatAxes.suffix .row r ++ RepeatAxes.suffix .column c))
                s.around template r c := by
  refine ⟨?_, fun v => ⟨?_, ?_⟩, ?_⟩
  · rw [← (ofSpec_sites h).length_eq, List.length_range]
  · intro hv
    have ⟨n, _, hn, _⟩ := hv
    obtain ⟨s, hs⟩ := exists_site_of_lt h (lt_size_of_get? hn)
    obtain ⟨head, axes, template, hspec⟩ := (realizes_of_sites h hs).repeats_iff.mp hv
    exact ⟨s, head, axes, template, hs, hspec⟩
  · rintro ⟨s, head, axes, template, hs, hspec⟩
    exact (realizes_of_sites h hs).repeats_iff.mpr ⟨head, axes, template, hspec⟩
  · intro v s head axes template hs hspec
    have hrealizes := realizes_of_sites h hs
    have hparts : s.parts = axes.instances.map fun i =>
        s.below none i.label (i.repeater :: s.around) template := by
      rw [Site.parts, hspec]
    have hchildren : t.children v = .ok ((t.childNodes v).map Prod.fst) := by
      cases hrealizes with
      | mk hv => exact children_eq_ok.mpr ⟨⟨_, hv⟩, rfl⟩
    refine ⟨_, hrealizes.name_eq, hchildren, ?_, fun i j r c hr hc => ?_⟩
    · rw [List.length_map, hrealizes.children.length_eq, hparts, List.length_map,
        axes.length_instances]
    · have hpart : s.parts[i * (axes.stops .column).length + j]? = some
          (s.below none (RepeatAxes.instanceAt r c).label
            ((RepeatAxes.instanceAt r c).repeater :: s.around) template) := by
        rw [hparts, List.getElem?_map, RepeatAxes.getElem?_instances hr hc, Option.map_some]
      obtain ⟨⟨u, m⟩, hu, hinstance⟩ := exists_getElem?_of_forall₂ hrealizes.children hpart
      refine ⟨u, by rw [List.getElem?_map, hu, Option.map_some], ?_⟩
      rw [← stem_of_sites hs]
      have hrepeater := hinstance.repeater_of_within
      refine ⟨hinstance.name_eq, hinstance, hrepeater, ?_⟩
      intro w x hx hin hnone q head mark hq hspec ch d source hd hsource
      exact hq.field?_of_repeater hx (hrepeater w x hx hin hnone) hspec hd hsource

end ViewTree

/-- A cell that shows the fields of its row and column, and a further repetition on top. -/
def ViewSpec.layeredCell : ViewSpec :=
  .layered { (default : ViewHead) with name := some "cell" }
    [points [(.x, .numericAlong .column), (.y, .numericAlong .row)] [],
      .repeated default (.columns ["E"]) (points [(.x, .numericAlong .column)] [])]

/-- Two rows and two columns of cells, beside a repetition that has no instances. -/
def ViewSpec.cellTable : ViewSpec :=
  .concatenated default
    [.repeated default (.grid ["A", "B"] ["C", "D"]) .layeredCell,
      .repeated default (.rows []) .layeredCell]

/-- The cell of the second row and the first column comes third.  Its own unit view remembers
and shows the two fields, the one inside of the further repetition does not. -/
theorem ViewTree.ofSpec_unrolled_cellTable :
    ∃ t, ofSpec .cellTable = .ok t ∧ t.children 1 = .ok [2, 6, 10, 14] ∧
      t.IsInstance 10 "concat_0_repeat_row_1_column_0" [] .layeredCell
        (some ("B", 1)) (some ("C", 0)) ∧
      (∃ u, t.unit? 11 = some u ∧ u.repeater = some ⟨some "B", some "C"⟩ ∧
        u.field? .x = some ⟨"C"⟩ ∧ u.field? .y = some ⟨"B"⟩) ∧
      (∃ u, t.unit? 13 = some u ∧ u.repeater = some ⟨none, some "E"⟩ ∧
        u.field? .x = some ⟨"E"⟩) ∧
      t.children 18 = .ok [] := by
  obtain ⟨t, ht⟩ : ∃ t, ofSpec .cellTable = .ok t := ⟨_, rfl⟩
  have hviews : t.children 1 = .ok [2, 6, 10, 14] ∧
      (∃ u, t.unit? 11 = some u ∧ u.repeater = some ⟨some "B", some "C"⟩ ∧
        u.field? .x = some ⟨"C"⟩ ∧ u.field? .y = some ⟨"B"⟩) ∧
      (∃ u, t.unit? 13 = some u ∧ u.repeater = some ⟨none, some "E"⟩ ∧
        u.field? .x = some ⟨"E"⟩) ∧
      t.children 18 = .ok [] := by
    cases ht
    exact ⟨by decide +kernel, ⟨_, rfl, rfl, rfl, rfl⟩, ⟨_, rfl, rfl, rfl⟩, by decide +kernel⟩
  obtain ⟨hchildren, hcell, hfurther, hempty⟩ := hviews
  refine ⟨t, ht, hchildren, ?_, hcell, hfurther, hempty⟩
  have hsite : ViewSpec.cellTable.sites[1]? = some (ViewSpec.cellTable.site.below none
      ("concat_" ++ Nat.repr 0) []
      (.repeated default (.grid ["A", "B"] ["C", "D"]) .layeredCell)) := by
    have hparts : ViewSpec.cellTable.site.parts =
        [ViewSpec.cellTable.site.below none ("concat_" ++ Nat.repr 0) []
          (.repeated default (.grid ["A", "B"] ["C", "D"]) .layeredCell),
        ViewSpec.cellTable.site.below none ("concat_" ++ Nat.repr 1) []
          (.repeated default (.rows []) .layeredCell)] := rfl
    rw [ViewSpec.sites, Site.all_eq, List.getElem?_cons_succ, hparts, List.flatMap_cons,
      Site.all_eq]
    rfl
  obtain ⟨cs, -, hcs, -, hinstances⟩ := (ofSpec_unrolled ht).2.2 1 _ _ _ _ hsite rfl
  obtain rfl := Except.ok.inj (hcs.symm.trans hchildren)
  obtain ⟨u, hu, hinstance⟩ := hinstances 1 0 (some ("B", 1)) (some ("C", 0)) rfl rfl
  obtain rfl : 10 = u := Option.some.inj hu
  have hname : "" ++ ("concat_" ++ Nat.repr 0) ++ "_" ++ ("repeat" ++
      RepeatAxes.suffix .row (some ("B", 1)) ++ RepeatAxes.suffix .column (some ("C", 0))) =
      "concat_0_repeat_row_1_column_0" := by decide
  rw [← hname]
  exact hinstance

end BrushLink
