import BrushLink.Proofs.Json.Reordering
import BrushLink.Proofs.Selection.Parsing

/-! # Declarations of one name agree

Views that declare the same name speak of one selection.  What they have to agree on
are its terms: the type, the resolution, and the binding up to the order of members
(`SelectionDef.Agrees`).  To agree is to have the same terms in a form that does not
depend on that order (`Declaration.agrees_iff`), so agreement is an equivalence.  Hence
what disagrees with any earlier declaration of its name disagrees with the first of them
(`Declaration.exists_first_of_not_consistent`).
-/
namespace BrushLink

/-- The binding in a form that does not depend on the order of members. -/
def Bind.sorted : Bind → Bind
  | .scales => .scales
  | .widget members => .widget (Json.sortedMembers members)

theorem Bind.same_iff {a b : Bind} : a.same b = true ↔ a.sorted = b.sorted := by
  cases a with
  | scales => cases b <;> simp [same, sorted]
  | widget ms =>
    cases b with
    | scales => simp [same, sorted]
    | widget ms' => simp [same, sorted, Json.same, Json.sorted]

namespace SelectionEntry

/-- What the declarations of a name have to agree on. -/
def terms (e : SelectionEntry) : SelectionType × Resolution × Option Bind :=
  (e.type, e.resolve, e.bind.map Bind.sorted)

theorem agrees_iff {a b : SelectionEntry} : a.agrees b = true ↔ a.terms = b.terms := by
  have hbind : sameBind a.bind b.bind = true ↔ a.bind.map Bind.sorted = b.bind.map Bind.sorted := by
    cases a.bind with
    | none => cases b.bind <;> simp [sameBind]
    | some v =>
      cases b.bind with
      | none => simp [sameBind]
      | some w => simp [sameBind, Bind.same_iff]
  rw [agrees, Bool.and_eq_true, Bool.and_eq_true, decide_eq_true_eq, decide_eq_true_eq, hbind,
    terms, terms, Prod.mk.injEq, Prod.mk.injEq, and_assoc]

end SelectionEntry

/-- Two bindings that say the same: both to the scales, or to widgets whose members
differ in their order at most. -/
inductive Bind.Alike : Bind → Bind → Prop
  | scales : Alike .scales .scales
  | widget {ms ns : List (String × Json)} (h : Json.Reordered (.object ms) (.object ns)) :
      Alike (.widget ms) (.widget ns)

theorem Bind.same_iff_alike {a b : Bind} : a.same b = true ↔ a.Alike b := by
  constructor
  · intro h
    cases a with
    | scales =>
      cases b with
      | scales => exact .scales
      | widget ns => cases h
    | widget ms =>
      cases b with
      | scales => cases h
      | widget ns => exact .widget (Json.same_iff_reordered.mp h)
  · intro h
    cases h with
    | scales => rfl
    | widget h => exact Json.same_iff_reordered.mpr h

theorem SelectionEntry.sameBind_iff {a b : Option Bind} :
    sameBind a b = true ↔ Option.Rel Bind.Alike a b := by
  constructor
  · intro h
    cases a with
    | none =>
      cases b with
      | none => exact .none
      | some b => cases h
    | some a =>
      cases b with
      | none => cases h
      | some b => exact .some (Bind.same_iff_alike.mp h)
  · intro h
    cases h with
    | none => rfl
    | some h => exact Bind.same_iff_alike.mpr h

/-- Two selections, their open settings filled, that may go by one name. -/
structure SelectionDef.Agrees (a b : SelectionDef) : Prop where
  type : a.type = b.type
  resolve : a.settings.resolve.getD .global = b.settings.resolve.getD .global
  bind : Option.Rel Bind.Alike a.settings.bind b.settings.bind

namespace Declaration
variable {a b d : Declaration}

theorem agrees_ofDeclaration :
    (SelectionEntry.ofDeclaration a).agrees (.ofDeclaration b) = true ↔
      a.selection.Agrees b.selection := by
  rw [SelectionEntry.agrees, Bool.and_eq_true, Bool.and_eq_true, decide_eq_true_eq,
    decide_eq_true_eq, SelectionEntry.sameBind_iff]
  constructor
  · rintro ⟨⟨htype, hresolve⟩, hbind⟩
    exact ⟨htype, hresolve, hbind⟩
  · rintro ⟨htype, hresolve, hbind⟩
    exact ⟨⟨htype, hresolve⟩, hbind⟩

/-- To agree is to have the same terms. -/
theorem agrees_iff :
    a.selection.Agrees b.selection ↔
      (SelectionEntry.ofDeclaration a).terms = (SelectionEntry.ofDeclaration b).terms := by
  rw [← agrees_ofDeclaration, SelectionEntry.agrees_iff]

/-- The two can be declared in one tree: if they are of one name, they agree. -/
def Consistent (a b : Declaration) : Prop := a.name = b.name → a.selection.Agrees b.selection

theorem Consistent.refl (a : Declaration) : a.Consistent a := fun _ => agrees_iff.mpr rfl

theorem Consistent.symm (h : a.Consistent b) : b.Consistent a :=
  fun hname => agrees_iff.mpr (agrees_iff.mp (h hname.symm)).symm

/-- In a list, consistent from left to right is consistent throughout. -/
theorem pairwise_consistent_iff {ds : List Declaration} :
    ds.Pairwise Consistent ↔ ∀ a ∈ ds, ∀ b ∈ ds, a.Consistent b := by
  constructor
  · intro h a ha b hb
    exact h.forall_of_forall_of_flip (fun a _ => .refl a) (h.imp Consistent.symm) ha hb
  · exact List.pairwise_of_forall_mem_list

/-- What disagrees with an earlier declaration of its name disagrees with the first. -/
theorem exists_first_of_not_consistent {before : List Declaration}
    (h : before.Pairwise Consistent) (ha : a ∈ before) (had : ¬ a.Consistent d) :
    ∃ first, before.find? (fun b => b.name = d.name) = some first ∧
      ¬ first.selection.Agrees d.selection := by
  obtain ⟨hname, hdisagrees⟩ := Classical.not_imp.mp had
  cases hfind : before.find? fun b => b.name = d.name with
  | none => exact absurd hname (by simpa using List.find?_eq_none.mp hfind a ha)
  | some first =>
    refine ⟨first, rfl, fun hagrees => hdisagrees ?_⟩
    have hfirst : first.name = d.name := by simpa using List.find?_some hfind
    have hsame := pairwise_consistent_iff.mp h a ha first (List.mem_of_find?_eq_some hfind)
      (hname.trans hfirst.symm)
    rw [agrees_iff] at hagrees hsame ⊢
    exact hsame.trans hagrees

end Declaration

end BrushLink
