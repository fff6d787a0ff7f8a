import BrushLink.Proofs.Result
import BrushLink.Proofs.View.WellFormed
import BrushLink.View.Expansion

/-! # How expansion grows a tree

Expanding a specification only ever adds views, one at a time, each under a name that
is free, and either as the root of a tree without views or under an inner view in whose
branch the last view was added (`Grows`).  Views that are there stay as they are.  What
every single addition keeps holds of the tree of a specification: it is well formed, no
view lies beneath a unit view, no two views have one name, and views are added as a walk
from parents to children would meet them (`DepthFirst`).

That the branch that was added last is always the right one is what the expansion of one
view leaves behind for its siblings (`Planted`).
-/
namespace BrushLink.ViewTree
variable {t t' : ViewTree}

/-- A view is an inner view of the tree. -/
def HasComposite (t : ViewTree) (v : ViewId) : Prop :=
  ∃ n k, t.get? v = some n ∧ n.content = .composite k

/-- A view that may get a further child: an inner view, with the last view of the tree
at or beneath it. -/
structure TakesChild (t : ViewTree) (v : ViewId) : Prop where
  composite : t.HasComposite v
  last : t.Within (t.size - 1) v

/-- Trees that arise from a tree by adding views under free names, as the root or where
the last view was added. -/
inductive Grows (t : ViewTree) : ViewTree → Prop
  | refl : Grows t t
  | add {t₁ t₂ : ViewTree} {p : Place} {content : ViewContent} (h : Grows t t₁)
      (hname : t₁.checkName p.name = .ok ())
      (hparent : ∀ q, p.parent = some q → t₁.TakesChild q)
      (hadd : t₁.addAt p content = .ok t₂) : Grows t t₂

/-- Every view but the root was added right after a view at or beneath its parent. -/
def DepthFirst (t : ViewTree) : Prop :=
  ∀ {v n p}, t.get? v = some n → n.parent = some p → t.Within (v - 1) p

/-- A parent under which a view may be added: a view of the tree, or none if there are no
views yet. -/
def Accepts (t : ViewTree) : Option ViewId → Prop
  | some p => p < t.size
  | none => t.size = 0

/-- A view is added after all others, or refused on account of its parent. -/
theorem add_eq_ok {name : String} {parent : Option ViewId} {content : ViewContent} :
    t.add name parent content = .ok t' ↔
      t' = ⟨t.nodes ++ [⟨name, parent, content⟩]⟩ ∧ t.Accepts parent := by
  cases parent with
  | some p =>
    simp only [add, Accepts]
    by_cases h : p < t.size
    · simp [h, eq_comm]
    · simp [h]
  | none =>
    simp only [add, Accepts]
    by_cases h : t.size = 0
    · have hnil : t.nodes = [] := List.length_eq_zero_iff.mp h
      simp [h, hnil, eq_comm]
    · simp [h]

/-- What a successful addition makes of a tree. -/
theorem addAt_ok {p : Place} {content : ViewContent} (h : t.addAt p content = .ok t') :
    t' = ⟨t.nodes ++ [⟨p.name, p.parent, content⟩]⟩ ∧ t.Accepts p.parent :=
  add_eq_ok.mp (CompileError.ofTree_eq_ok.mp h)

theorem get?_append {t : ViewTree} {n m : ViewNode} {v : ViewId} :
    (ViewTree.mk (t.nodes ++ [n])).get? v = some m ↔
      t.get? v = some m ∨ v = t.size ∧ n = m := by
  simp only [get?, size]
  rcases Nat.lt_trichotomy v t.nodes.length with h | h | h
  · rw [List.getElem?_append_left h]
    constructor
    · exact Or.inl
    · rintro (hm | ⟨he, -⟩)
      · exact hm
      · exact absurd he (Nat.ne_of_lt h)
  · subst h
    simp
  · have hlen : (t.nodes ++ [n]).length ≤ v := by
      rw [List.length_append, List.length_singleton]
      exact h
    rw [List.getElem?_eq_none hlen, List.getElem?_eq_none (Nat.le_of_lt h)]
    constructor
    · intro hm
      cases hm
    · rintro (hm | ⟨he, -⟩)
      · cases hm
      · exact absurd he (Nat.ne_of_gt h)

theorem WellFormed.append (hw : t.WellFormed) {n : ViewNode} (h : t.Accepts n.parent) :
    (ViewTree.mk (t.nodes ++ [n])).WellFormed := by
  constructor
  · intro v m hv hm
    rcases get?_append.mp hv with hv | ⟨rfl, rfl⟩
    · exact hw.root_of_orphan hv hm
    · rw [hm] at h
      exact h
  · intro v m p hv hp
    rcases get?_append.mp hv with hv | ⟨rfl, rfl⟩
    · exact hw.parent_lt hv hp
    · rw [hp] at h
      exact h

theorem checkName_eq_ok {name : String} :
    t.checkName name = .ok () ↔ name ∉ t.nodes.map ViewNode.name := by
  have hfind : t.find? name = none ↔ name ∉ t.nodes.map ViewNode.name := by
    rw [find?, List.findIdx?_eq_none_iff, List.mem_map, not_exists]
    refine forall_congr' fun n => ?_
    rw [not_and, decide_eq_false_iff_not]
  rw [← hfind, checkName]
  split
  · rename_i v hv
    rw [hv]
    constructor
    · intro h
      cases h
    · intro h
      cases h
  · rename_i hnone
    exact iff_of_true rfl hnone

namespace Grows

theorem trans {t₂ : ViewTree} (h : t.Grows t') (h' : t'.Grows t₂) : t.Grows t₂ := by
  induction h' with
  | refl => exact h
  | add _ hname hparent hadd ih => exact .add ih hname hparent hadd

/-- Views that are there stay. -/
theorem get? (h : t.Grows t') {v : ViewId} {n : ViewNode} (hv : t.get? v = some n) :
    t'.get? v = some n := by
  induction h with
  | refl => exact hv
  | add _ _ _ hadd ih =>
    rw [(addAt_ok hadd).1]
    exact get?_append.mpr (Or.inl ih)

theorem hasComposite (h : t.Grows t') {v : ViewId} (hv : t.HasComposite v) :
    t'.HasComposite v := by
  obtain ⟨n, k, hn, hk⟩ := hv
  exact ⟨n, k, h.get? hn, hk⟩

theorem within (h : t.Grows t') {v a : ViewId} (hv : t.Within v a) : t'.Within v a := by
  induction hv with
  | refl v => exact .refl v
  | step hv hp _ ih => exact .step (h.get? hv) hp ih

theorem wellFormed (h : t.Grows t') (hw : t.WellFormed) : t'.WellFormed := by
  induction h with
  | refl => exact hw
  | add _ _ _ hadd ih =>
    obtain ⟨rfl, haccepts⟩ := addAt_ok hadd
    exact ih.append haccepts

theorem unitsAreLeaves (h : t.Grows t') (hl : t.UnitsAreLeaves) : t'.UnitsAreLeaves := by
  induction h with
  | refl => exact hl
  | @add t₁ t₂ p content _ hname hparent hadd ih =>
    have hone : t₁.Grows t₂ := .add .refl hname hparent hadd
    obtain ⟨rfl, _⟩ := addAt_ok hadd
    intro v n q hv hq
    rcases get?_append.mp hv with hv | ⟨rfl, rfl⟩
    · exact hone.hasComposite (ih hv hq)
    · exact hone.hasComposite (hparent q hq).composite

theorem depthFirst (h : t.Grows t') (hd : t.DepthFirst) : t'.DepthFirst := by
  induction h with
  | refl => exact hd
  | @add t₁ t₂ p content _ hname hparent hadd ih =>
    have hone : t₁.Grows t₂ := .add .refl hname hparent hadd
    obtain ⟨rfl, _⟩ := addAt_ok hadd
    intro v n q hv hq
    rcases get?_append.mp hv with hv | ⟨rfl, rfl⟩
    · exact hone.within (ih hv hq)
    · exact hone.within (hparent q hq).last

theorem names_nodup (h : t.Grows t') (hn : (t.nodes.map ViewNode.name).Nodup) :
    (t'.nodes.map ViewNode.name).Nodup := by
  induction h with
  | refl => exact hn
  | add _ hname _ hadd ih =>
    rw [(addAt_ok hadd).1, List.map_append, List.map_singleton]
    refine List.nodup_append.mpr ⟨ih, List.nodup_singleton _, fun a ha b hb he => ?_⟩
    rw [he, List.mem_singleton.mp hb] at ha
    exact checkName_eq_ok.mp hname ha

end Grows

/-! ## What an expansion leaves behind -/

/-- What comes of expanding a specification at a place: views are added, the first of them
at the place and the last of them at or beneath the first. -/
structure Planted (t : ViewTree) (p : Place) (t' : ViewTree) : Prop where
  grows : t.Grows t'
  top : ∃ n, t'.get? t.size = some n ∧ n.parent = p.parent
  last : t'.Within (t'.size - 1) t.size

section Planting
variable {p : Place} {content : ViewContent} {q : ViewId}

theorem planted_of_addAt (hname : t.checkName p.name = .ok ())
    (hparent : ∀ q, p.parent = some q → t.TakesChild q) (h : t.addAt p content = .ok t') :
    t.Planted p t' := by
  refine ⟨.add .refl hname hparent h, ?_, ?_⟩
  · rw [(addAt_ok h).1]
    exact ⟨_, get?_append.mpr (Or.inr ⟨rfl, rfl⟩), rfl⟩
  · have hsize : t'.size - 1 = t.size := by
      rw [(addAt_ok h).1, size, List.length_append]
      rfl
    rw [hsize]
    exact .refl _

/-- An inner view that was just added may get children. -/
theorem takesChild_of_addAt {k : CompositeView} (hname : t.checkName p.name = .ok ())
    (hparent : ∀ q, p.parent = some q → t.TakesChild q)
    (h : t.addAt p (.composite k) = .ok t') : t'.TakesChild t.size := by
  refine ⟨?_, (planted_of_addAt hname hparent h).last⟩
  rw [(addAt_ok h).1]
  exact ⟨_, k, get?_append.mpr (Or.inr ⟨rfl, rfl⟩), rfl⟩

namespace Planted

/-- A view that got a child may get another one. -/
theorem takesChild (h : t.Planted p t') (hp : p.parent = some q) (hq : t.TakesChild q) :
    t'.TakesChild q := by
  obtain ⟨n, hn, hparent⟩ := h.top
  exact ⟨h.grows.hasComposite hq.composite,
    h.last.trans (.step hn (hparent.trans hp) (.refl q))⟩

/-- What is added beneath the first view belongs to the expansion. -/
theorem extend {t₂ : ViewTree} (h : t.Planted p t') (hg : t'.Grows t₂)
    (hlast : t₂.TakesChild t.size) : t.Planted p t₂ := by
  obtain ⟨n, hn, hparent⟩ := h.top
  exact ⟨h.grows.trans hg, ⟨n, hg.get? hn, hparent⟩, hlast.last⟩

end Planted

end Planting

mutual

theorem expand_planted (spec : ViewSpec) (t t' : ViewTree) (p : Place)
    (hparent : ∀ q, p.parent = some q → t.TakesChild q)
    (h : t.expand p spec = .ok t') : t.Planted p t' := by
  match spec with
  | .malformed _ _ =>
    rw [expand] at h
    obtain ⟨_, _, h⟩ := Except.bind_eq_ok.mp h
    cases h
  | .unit _ _ =>
    rw [expand] at h
    obtain ⟨_, hname, h⟩ := Except.bind_eq_ok.mp h
    obtain ⟨_, _, h⟩ := Except.bind_eq_ok.mp h
    exact planted_of_addAt hname hparent h
  | .layered _ children | .concatenated _ children =>
    rw [expand] at h
    obtain ⟨_, hname, h⟩ := Except.bind_eq_ok.mp h
    obtain ⟨t₁, h₁, h⟩ := Except.bind_eq_ok.mp h
    obtain ⟨hg, hlast⟩ := expandAll_grows children _ _ _ _ _ _
      (takesChild_of_addAt hname hparent h₁) h
    exact (planted_of_addAt hname hparent h₁).extend hg hlast
  | .repeated _ axes template =>
    rw [expand] at h
    obtain ⟨_, hname, h⟩ := Except.bind_eq_ok.mp h
    obtain ⟨t₁, h₁, h⟩ := Except.bind_eq_ok.mp h
    -- every instance finds the repeated view ready for it in the tree that the earlier ones left
    obtain ⟨hg, hlast⟩ := foldlM_ok_induction (fun t₂ => t₁.Grows t₂ ∧ t₂.TakesChild t.size)
      (fun t₂ t₃ i _ ⟨hg₂, htakes⟩ h₃ => by
        have hplanted := expand_planted template _ _ _
          (fun q hq => Option.some.inj hq ▸ htakes) h₃
        exact ⟨hg₂.trans hplanted.grows, hplanted.takesChild rfl htakes⟩)
      h ⟨.refl, takesChild_of_addAt hname hparent h₁⟩
    exact (planted_of_addAt hname hparent h₁).extend hg hlast
  | .faceted _ template =>
    rw [expand] at h
    obtain ⟨_, hname, h⟩ := Except.bind_eq_ok.mp h
    obtain ⟨t₁, h₁, h⟩ := Except.bind_eq_ok.mp h
    have htakes := takesChild_of_addAt hname hparent h₁
    have hplanted := expand_planted template _ _ _ (fun q hq => Option.some.inj hq ▸ htakes) h
    exact (planted_of_addAt hname hparent h₁).extend hplanted.grows
      (hplanted.takesChild rfl htakes)

theorem expandAll_grows (specs : List ViewSpec) (t t' : ViewTree) (parent : ViewId) (p : Place)
    (word : String) (index : Nat) (hparent : t.TakesChild parent)
    (h : t.expandAll parent p word index specs = .ok t') :
    t.Grows t' ∧ t'.TakesChild parent := by
  match specs with
  | [] =>
    obtain rfl := Except.ok.inj h
    exact ⟨.refl, hparent⟩
  | c :: cs =>
    rw [expandAll] at h
    obtain ⟨t₁, h₁, h⟩ := Except.bind_eq_ok.mp h
    have hplanted := expand_planted c _ _ _ (fun q hq => Option.some.inj hq ▸ hparent) h₁
    obtain ⟨hg, hlast⟩ := expandAll_grows cs _ _ _ _ _ _ (hplanted.takesChild rfl hparent) h
    exact ⟨hplanted.grows.trans hg, hlast⟩

end

/-- The tree of a specification is grown from nothing. -/
theorem ofSpec_planted {spec : ViewSpec} (h : ofSpec spec = .ok t) :
    empty.Planted ⟨spec.head.name.getD "root", none, none⟩ t :=
  expand_planted spec _ _ _ (fun _ hq => by cases hq) h

theorem get?_empty_ne_some (v : ViewId) (n : ViewNode) : empty.get? v ≠ some n :=
  fun hv => absurd (lt_size_of_get? hv) (Nat.not_lt_zero v)

theorem empty_wellFormed : empty.WellFormed :=
  ⟨fun hv => absurd hv (get?_empty_ne_some _ _), fun hv => absurd hv (get?_empty_ne_some _ _)⟩

/-- The tree of a specification is well formed, and no view lies beneath a unit
view. -/
theorem ofSpec_wellFormed {spec : ViewSpec} (h : ofSpec spec = .ok t) :
    t.WellFormed ∧ t.UnitsAreLeaves := by
  have hg := (ofSpec_planted h).grows
  exact ⟨hg.wellFormed empty_wellFormed,
    hg.unitsAreLeaves fun hv => absurd hv (get?_empty_ne_some _ _)⟩

end BrushLink.ViewTree
