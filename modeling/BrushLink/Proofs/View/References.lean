import BrushLink.Proofs.View.Realization

/-! # References to the repeated field

An encoding may refer to the field for which the enclosing template is repeated, along rows or
along columns.  Templates may be nested, and each may be repeated along one axis only, so a
reference can be to a repetition further out.  The field that it stands for is that of the
nearest repetition with a list for the axis (`Site.nearest?`).

A view only knows the innermost instance that it belongs to.  Where that one has no field along
the axis, the reference is reported as dangling, even if a repetition further out has one
(`Site.hides`, `crossedAxes_hidden`).  That is all that goes wrong: what is reported is the first
such reference on the walk, and where there is none, every reference becomes the field of the
nearest repetition (`ViewTree.ofSpec_references`).
-/
namespace BrushLink

/-- The axis to which an entry of an encoding refers. -/
def ChannelSpec.reference? : ChannelSpec → Option Axis
  | .single d =>
    match d.field with
    | some (.repeated axis) => some axis
    | _ => none
  | .list => none

namespace Place
variable {p : Place}

theorem danglingAxis?_eq (p : Place) (c : ChannelSpec) :
    p.danglingAxis? c = c.reference?.filter fun axis => (p.repeatedField? axis).isNone := by
  match c with
  | .list => rfl
  | .single ⟨none, _, _, _, _⟩ => rfl
  | .single ⟨some (.named _), _, _, _, _⟩ => rfl
  | .single ⟨some (.repeated axis), _, _, _, _⟩ =>
    simp [danglingAxis?, ChannelSpec.reference?, Option.filter]

/-- The first dangling reference is the first of all references that dangles. -/
theorem findSome?_danglingAxis? (p : Place) (cs : List ChannelSpec) :
    cs.findSome? p.danglingAxis? =
      (cs.filterMap ChannelSpec.reference?).find? fun axis => (p.repeatedField? axis).isNone := by
  induction cs with
  | nil => rfl
  | cons c cs ih =>
    rw [List.findSome?_cons, danglingAxis?_eq, ih, List.filterMap_cons]
    cases hc : c.reference? with
    | none => rfl
    | some axis =>
      rw [List.find?_cons, Option.filter_some]
      cases (p.repeatedField? axis).isNone <;> rfl

end Place

namespace Site
variable {s : Site} {axis : Axis}

/-- The axes to which the encoding of a unit view refers, in order. -/
def references (s : Site) : List Axis :=
  match s.spec with
  | .unit head _ => head.encoding.values.filterMap ChannelSpec.reference?
  | _ => []

/-- The field that the nearest repetition with a list for the axis gives to the instance that
the site belongs to. -/
def nearest? (s : Site) (axis : Axis) : Option String := s.around.findSome? (·.value axis)

/-- The field that the innermost repetition gives to the instance that the site belongs to. -/
def innermost? (s : Site) (axis : Axis) : Option String := s.around.head?.bind (·.value axis)

/-- The innermost repetition has no list for the axis and hides one further out that has. -/
def hides (s : Site) (axis : Axis) : Bool :=
  (s.innermost? axis).isNone && (s.nearest? axis).isSome

theorem nearest?_of_innermost? {f : String} (h : s.innermost? axis = some f) :
    s.nearest? axis = some f := by
  rw [innermost?] at h
  rw [nearest?]
  cases haround : s.around with
  | nil =>
    rw [haround] at h
    cases h
  | cons r rs =>
    rw [haround, List.head?_cons, Option.bind_some] at h
    rw [List.findSome?_cons, h]

/-- The innermost repetition says nothing if none does, or if it hides one that does. -/
theorem isNone_innermost? (s : Site) (axis : Axis) :
    (s.innermost? axis).isNone = ((s.nearest? axis).isNone || s.hides axis) := by
  rw [hides]
  cases hi : s.innermost? axis with
  | none => cases s.nearest? axis <;> rfl
  | some f => rw [nearest?_of_innermost? hi]; rfl

theorem repeatedField?_place (s : Site) (parent : Option ViewId) (axis : Axis) :
    (s.place parent).repeatedField? axis = (s.innermost? axis).map Field.mk := rfl

/-- A reference is reported on the site that has it, the first one that the innermost
repetition does not settle. -/
theorem content_eq_unresolved {view : String} :
    s.content = .error (.unresolvedRepeat view axis) ↔ s.name = view ∧
      s.references.find? (fun a => (s.nearest? a).isNone || s.hides a) = some axis := by
  have hisNone : (fun a => ((s.place none).repeatedField? a).isNone) =
      fun a => (s.nearest? a).isNone || s.hides a := by
    funext a
    rw [repeatedField?_place, Option.isNone_map, isNone_innermost?]
  have hunit : ∀ head mark, s.spec = .unit head mark →
      (s.content = .error (.unresolvedRepeat view axis) ↔ s.name = view ∧
        s.references.find? (fun a => (s.nearest? a).isNone || s.hides a) = some axis) := by
    intro head mark hspec
    rw [content, references, hspec, ← hisNone]
    simp only [Except.map_eq_error, Place.unitView_eq_error, Place.findSome?_danglingAxis?,
      CompileError.unresolvedRepeat.injEq]
    constructor
    · rintro ⟨a, ha, hname, rfl⟩
      exact ⟨hname.symm, ha⟩
    · rintro ⟨hname, ha⟩
      exact ⟨axis, ha, hname.symm, rfl⟩
  cases hspec : s.spec with
  | unit head mark => exact hunit head mark hspec
  | layered _ _ | concatenated _ _ | repeated _ _ _ | faceted _ _ | malformed _ _ =>
    simp [content, references, hspec]

end Site

namespace ViewTree

/-- **References are settled by the nearest repetition, unless the innermost one hides it.**
Making a tree reports a reference exactly if it is the first thing wrong on the walk, and either
no repetition around it has a list for the axis, or the innermost one has none and hides one
further out.  If the tree is made, every reference becomes the field that the nearest repetition
with a list for the axis gives to the instance. -/
theorem ofSpec_references (spec : ViewSpec) :
    (∀ view axis, ofSpec spec = .error (.unresolvedRepeat view axis) ↔
      ∃ before s after, spec.sites = before ++ s :: after ∧ Site.Faultless before ∧
        s.name = view ∧ s.name ∉ before.map Site.name ∧
        s.references.find? (fun a => (s.nearest? a).isNone || s.hides a) = some axis) ∧
    ∀ t, ofSpec spec = .ok t → ∀ s ∈ spec.sites, ∀ head mark, s.spec = .unit head mark →
      ∃ v u, t.find? s.name = some v ∧ t.unit? v = some u ∧
        ∀ c d axis, head.encoding.get? c = some (.single d) → d.field = some (.repeated axis) →
          ∃ f, s.nearest? axis = some f ∧ u.field? c = some ⟨f⟩ := by
  constructor
  · intro view axis
    rw [ofSpec_eq_error_iff, Site.firstFault_eq_some_iff]
    refine exists_congr fun before => exists_congr fun s => exists_congr fun after => ?_
    rw [Site.firstFault_eq_none_iff, Site.fault?_eq_some_iff, Site.content_eq_unresolved,
      List.nil_append]
    simp only [reduceCtorEq, and_false, false_or]
    tauto
  · intro t ht s hs head mark hspec
    obtain ⟨v, hv⟩ := List.mem_iff_getElem?.mp hs
    cases realizes_of_sites ht hv with
    | @mk _ n _ hn hname hcontent =>
      rw [Site.content, hspec] at hcontent
      obtain ⟨u, hu, hunit⟩ := Except.map_eq_ok.mp hcontent
      refine ⟨v, u, (find?_eq_some_iff (ofSpec_names_nodup ht)).mpr ⟨n, hn, hname⟩, ?_, ?_⟩
      · rw [unit?, hn, Option.bind_some, ← hunit]
        rfl
      · intro c d axis hc hd
        obtain ⟨f, hf, hfield⟩ := Place.field?_of_source hu hc hd
        rw [Place.field?, Site.repeatedField?_place] at hf
        obtain ⟨g, hg, rfl⟩ := Option.map_eq_some_iff.mp hf
        exact ⟨g, Site.nearest?_of_innermost? hg, hfield⟩

end ViewTree

/-- A field over another one, each given by a repetition of its own. -/
def ViewSpec.crossedAxes : ViewSpec :=
  .repeated default (.rows ["A"])
    (.repeated default (.columns ["B"])
      (points [(.x, .numericAlong .column), (.y, .numericAlong .row)] []))

/-- The same fields over each other, with rows both outside and inside. -/
def ViewSpec.rowsInRows : ViewSpec :=
  .repeated default (.rows ["A", "B"])
    (.repeated default (.grid ["C"] ["D"])
      (points [(.x, .numericAlong .column), (.y, .numericAlong .row)] []))

/-- The row that a reference is to is the inner one. -/
theorem ViewTree.ofSpec_references_rowsInRows :
    ∃ t v u, ofSpec .rowsInRows = .ok t ∧
      t.find? "repeat_row_1_repeat_row_0_column_0" = some v ∧ t.unit? v = some u ∧
      u.field? .x = some ⟨"D"⟩ ∧ u.field? .y = some ⟨"C"⟩ := by
  obtain ⟨t, ht⟩ : ∃ t, ofSpec .rowsInRows = .ok t := ⟨_, rfl⟩
  let unit := ViewSpec.points [(.x, .numericAlong .column), (.y, .numericAlong .row)] []
  let row := ViewSpec.rowsInRows.site.below none "repeat_row_1" [⟨some "B", none⟩]
    (.repeated default (.grid ["C"] ["D"]) unit)
  let cell := row.below none "repeat_row_0_column_0" [⟨some "C", some "D"⟩, ⟨some "B", none⟩] unit
  have hrow : row ∈ ViewSpec.rowsInRows.site.parts :=
    List.mem_map.mpr ⟨⟨"repeat_row_1", ⟨some "B", none⟩⟩, by decide, rfl⟩
  have hcell : cell ∈ row.parts :=
    List.mem_map.mpr ⟨⟨"repeat_row_0_column_0", ⟨some "C", some "D"⟩⟩, by decide, rfl⟩
  have hmem : cell ∈ ViewSpec.rowsInRows.sites :=
    Site.mem_all_of_mem_parts hrow (Site.mem_all_of_mem_parts hcell cell.mem_all_self)
  obtain ⟨v, u, hv, hu, hfields⟩ := (ofSpec_references .rowsInRows).2 t ht cell hmem _ _ rfl
  obtain ⟨x, hx, hfx⟩ := hfields .x _ .column rfl rfl
  obtain ⟨y, hy, hfy⟩ := hfields .y _ .row rfl rfl
  obtain rfl : "D" = x := Option.some.inj hx
  obtain rfl : "C" = y := Option.some.inj hy
  have hname : cell.name = "repeat_row_1_repeat_row_0_column_0" := by decide
  exact ⟨t, v, u, ht, hname ▸ hv, hu, hfx, hfy⟩

/-- The reference to the row is reported, although the outer repetition has rows. -/
theorem crossedAxes_hidden :
    ViewTree.ofSpec .crossedAxes =
        .error (.unresolvedRepeat "repeat_row_0_repeat_column_0" .row) ∧
      ∃ s ∈ ViewSpec.crossedAxes.sites, s.name = "repeat_row_0_repeat_column_0" ∧
        .row ∈ s.references ∧ s.nearest? .row = some "A" := by
  refine ⟨rfl, ?_⟩
  decide +kernel

end BrushLink
