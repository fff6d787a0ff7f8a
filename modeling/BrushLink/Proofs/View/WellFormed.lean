import BrushLink.View.Tree
import Mathlib.Data.List.Nodup

/-! # Well-formed view trees

A tree lists its views in the order of their creation, and all it says about
their arrangement is each view's parent.  It is well formed when only the first
view has no parent and every other parent came before its child.  The levels that
`branch` counts are then more than enough: the branch grown at a view holds all
children at every level (`Spans`), so what is true of it is proved by induction on
`Spans` and the levels are not mentioned again.

`Within` is the declarative counterpart of `climb`.  Since going to the parent is
deterministic, two views that lie above a third lie above one another
(`Within.total`), which is why the branches of two siblings have no view in
common (`Spans.disjoint`).
-/
namespace BrushLink

theorem ViewContent.unit?_eq_some_iff {content : ViewContent} {u : UnitView} :
    content.unit? = some u ↔ content = .unit u := by
  cases content <;> simp [unit?]

theorem Branch.flattenAll_eq_flatMap (bs : List Branch) :
    Branch.flattenAll bs = bs.flatMap Branch.flatten := by
  induction bs with
  | nil => rfl
  | cons b bs ih => rw [Branch.flattenAll, ih, List.flatMap_cons]

theorem Branch.flatten_mk (v : ViewId) (n : ViewNode) (bs : List Branch) :
    (Branch.mk v n bs).flatten = (v, n) :: bs.flatMap Branch.flatten := by
  rw [Branch.flatten, Branch.flattenAll_eq_flatMap]

namespace ViewTree
variable {t : ViewTree}

/-- Only the first view has no parent, and a parent comes before its children. -/
structure WellFormed (t : ViewTree) : Prop where
  root_of_orphan : ∀ {v n}, t.get? v = some n → n.parent = none → v = root
  parent_lt : ∀ {v n p}, t.get? v = some n → n.parent = some p → p < v

/-- No view lies directly beneath a unit view. -/
def UnitsAreLeaves (t : ViewTree) : Prop :=
  ∀ {v n p}, t.get? v = some n → n.parent = some p →
    ∃ m k, t.get? p = some m ∧ m.content = .composite k

theorem lt_size_of_get? {v : ViewId} {n : ViewNode} (h : t.get? v = some n) : v < t.size :=
  (List.getElem?_eq_some_iff.mp h).1

theorem exists_get?_of_lt {v : ViewId} (h : v < t.size) : ∃ n, t.get? v = some n :=
  ⟨_, List.getElem?_eq_getElem h⟩

theorem exists_parent (hw : t.WellFormed) {v p : ViewId} {n : ViewNode}
    (hv : t.get? v = some n) (hp : n.parent = some p) : ∃ m, t.get? p = some m :=
  exists_get?_of_lt (Nat.lt_trans (hw.parent_lt hv hp) (lt_size_of_get? hv))

/-! ## Questions to the tree -/

/-- A question about a view that is in the tree is answered. -/
theorem map_node_eq_ok {α : Type} {f : ViewNode → α} {v : ViewId} {a : α} :
    (t.node v).map f = .ok a ↔ ∃ n, t.get? v = some n ∧ f n = a := by
  rw [node]
  cases t.get? v with
  | none =>
    constructor
    · intro h
      cases h
    · rintro ⟨_, h, _⟩
      cases h
  | some n =>
    constructor
    · exact fun h => ⟨n, rfl, Except.ok.inj h⟩
    · rintro ⟨_, h, rfl⟩
      cases h
      rfl

theorem node_eq_ok {v : ViewId} {n : ViewNode} : t.node v = .ok n ↔ t.get? v = some n := by
  rw [node]
  cases t.get? v <;> simp

theorem name_of_get? {v : ViewId} {n : ViewNode} (h : t.get? v = some n) :
    t.name v = .ok n.name :=
  map_node_eq_ok.mpr ⟨n, h, rfl⟩

theorem parent_of_get? {v : ViewId} {n : ViewNode} (h : t.get? v = some n) :
    t.parent v = .ok n.parent :=
  map_node_eq_ok.mpr ⟨n, h, rfl⟩

theorem ancestors_of_get? {v : ViewId} {n : ViewNode} (h : t.get? v = some n) :
    t.ancestors v = .ok (t.climb t.size v) :=
  map_node_eq_ok.mpr ⟨n, h, rfl⟩

/-! ## Children -/

theorem mem_childNodes {v u : ViewId} {n : ViewNode} :
    (u, n) ∈ t.childNodes v ↔ t.get? u = some n ∧ n.parent = some v := by
  simp only [childNodes, get?, List.mem_filter, List.mem_mapIdx, Prod.mk.injEq,
    decide_eq_true_eq, List.getElem?_eq_some_iff]
  constructor
  · rintro ⟨⟨i, hi, rfl, rfl⟩, hp⟩
    exact ⟨⟨hi, rfl⟩, hp⟩
  · rintro ⟨⟨hi, rfl⟩, hp⟩
    exact ⟨⟨u, hi, rfl, rfl⟩, hp⟩

/-- Children are listed in the order of their creation. -/
theorem childNodes_pairwise (t : ViewTree) (v : ViewId) :
    (t.childNodes v).Pairwise fun a b => a.1 < b.1 := by
  refine List.Pairwise.filter _ (List.pairwise_iff_getElem.mpr ?_)
  intro i j hi hj hij
  simpa using hij

/-! ## Going up -/

/-- Going from a view to its parent, some number of times, leads to another. -/
inductive Within (t : ViewTree) : ViewId → ViewId → Prop
  | refl (v : ViewId) : Within t v v
  | step {v p a : ViewId} {n : ViewNode} (hv : t.get? v = some n) (hp : n.parent = some p)
      (h : Within t p a) : Within t v a

namespace Within

theorem trans {v a b : ViewId} (h : t.Within v a) (h' : t.Within a b) : t.Within v b := by
  induction h with
  | refl => exact h'
  | step hv hp _ ih => exact .step hv hp (ih h')

theorem le (hw : t.WellFormed) {v a : ViewId} (h : t.Within v a) : a ≤ v := by
  induction h with
  | refl => exact Nat.le_refl _
  | step hv hp _ ih => exact Nat.le_trans ih (Nat.le_of_lt (hw.parent_lt hv hp))

/-- Two views above a third are above one another. -/
theorem total {v a b : ViewId} (ha : t.Within v a) (hb : t.Within v b) :
    t.Within a b ∨ t.Within b a := by
  induction ha with
  | refl => exact Or.inl hb
  | step hv hp h ih =>
    cases hb with
    | refl => exact Or.inr (.step hv hp h)
    | step hv' hp' hb =>
      obtain rfl := Option.some.inj (hv.symm.trans hv')
      obtain rfl := Option.some.inj (hp.symm.trans hp')
      exact ih hb

/-- No other view is beneath a unit view. -/
theorem eq_of_unit? (hl : t.UnitsAreLeaves) {v a : ViewId} {u : UnitView} (h : t.Within v a)
    (hu : t.unit? a = some u) : v = a := by
  induction h with
  | refl => rfl
  | step hv hp _ ih =>
    obtain rfl := ih hu
    obtain ⟨m, k, hm, hk⟩ := hl hv hp
    rw [unit?, hm, Option.bind_some, hk] at hu
    cases hu

theorem of_mem_climb {steps : Nat} {v a : ViewId} (h : a ∈ t.climb steps v) : t.Within v a := by
  induction steps generalizing v with
  | zero => cases h
  | succ steps ih =>
    rw [climb] at h
    split at h
    · rename_i p hp
      obtain ⟨n, hn, hp⟩ := Option.bind_eq_some_iff.mp hp
      rcases List.mem_cons.mp h with rfl | h
      · exact .refl a
      · exact .step hn hp (ih h)
    · rw [List.mem_singleton.mp h]
      exact .refl v

/-- Beneath a child of `v` or that child, but beneath another child of `v` or that
other child, lies nothing. -/
theorem sibling_eq (hw : t.WellFormed) {u v a b : ViewId} {na nb : ViewNode}
    (ha : t.get? a = some na) (hpa : na.parent = some v)
    (hb : t.get? b = some nb) (hpb : nb.parent = some v)
    (hua : t.Within u a) (hub : t.Within u b) : a = b := by
  -- the other view would be at or above the common parent, which came before it
  have key : ∀ {x y : ViewId} {nx ny : ViewNode}, t.get? x = some nx → nx.parent = some v →
      t.get? y = some ny → ny.parent = some v → t.Within x y → x = y := by
    intro x y nx ny hx hpx hy hpy hxy
    cases hxy with
    | refl => rfl
    | step hx' hpx' h =>
      obtain rfl := Option.some.inj (hx.symm.trans hx')
      obtain rfl := Option.some.inj (hpx.symm.trans hpx')
      exact absurd (h.le hw) (Nat.not_le_of_lt (hw.parent_lt hy hpy))
  rcases hua.total hub with h | h
  · exact key ha hpa hb hpb h
  · exact (key hb hpb ha hpa h).symm

/-- Everything lies beneath the root. -/
theorem to_root (hw : t.WellFormed) {v : ViewId} {n : ViewNode} (hv : t.get? v = some n) :
    t.Within v root := by
  induction v using Nat.strongRecOn generalizing n with
  | ind v ih =>
    cases hp : n.parent with
    | none =>
      obtain rfl := hw.root_of_orphan hv hp
      exact .refl _
    | some p =>
      obtain ⟨m, hm⟩ := exists_parent hw hv hp
      exact .step hv hp (ih p (hw.parent_lt hv hp) hm)

end Within

/-! ## Branches that leave nothing out -/

/-- A branch whose views are views of the tree, each with all its children. -/
inductive Spans (t : ViewTree) : Branch → Prop
  | mk {v : ViewId} {n : ViewNode} {bs : List Branch} (hv : t.get? v = some n)
      (hkids : bs.map (fun b => (b.id, b.node)) = t.childNodes v)
      (hall : ∀ b ∈ bs, Spans t b) : Spans t (.mk v n bs)

@[simp] theorem branch_id (levels : Nat) (v : ViewId) (n : ViewNode) :
    (t.branch levels v n).id = v := by
  cases levels <;> rfl

@[simp] theorem branch_node (levels : Nat) (v : ViewId) (n : ViewNode) :
    (t.branch levels v n).node = n := by
  cases levels <;> rfl

theorem branch_spans (hw : t.WellFormed) (levels : Nat) {v : ViewId} {n : ViewNode}
    (hv : t.get? v = some n) (hl : t.size ≤ v + levels) : t.Spans (t.branch levels v n) := by
  induction levels generalizing v n with
  | zero =>
    exact absurd (lt_size_of_get? hv) (Nat.not_lt_of_le hl)
  | succ levels ih =>
    rw [branch]
    refine .mk hv ?_ ?_
    · rw [List.map_map]
      refine (List.map_congr_left fun c _ => ?_).trans (List.map_id _)
      simp
    · intro b hb
      obtain ⟨⟨u, m⟩, hc, rfl⟩ := List.mem_map.mp hb
      obtain ⟨hu, hp⟩ := mem_childNodes.mp hc
      have hlt : v + 1 ≤ u := hw.parent_lt hu hp
      exact ih hu (by rw [Nat.add_comm levels, ← Nat.add_assoc] at hl
                      exact Nat.le_trans hl (Nat.add_le_add_right hlt levels))

theorem trunk_spans (hw : t.WellFormed) {b : Branch} (hb : t.trunk? = some b) :
    t.Spans b ∧ b.id = root := by
  obtain ⟨n, hn, rfl⟩ := Option.map_eq_some_iff.mp hb
  refine ⟨branch_spans hw _ ?_ (by omega), branch_id ..⟩
  rw [List.head?_eq_getElem?] at hn
  exact hn

namespace Spans
variable {b : Branch}

theorem child {v : ViewId} {n : ViewNode} {bs : List Branch} (h : t.Spans (.mk v n bs))
    (hb : b ∈ bs) : t.Spans b ∧ t.get? b.id = some b.node ∧ b.node.parent = some v := by
  cases h with
  | mk hv hkids hall =>
    refine ⟨hall b hb, mem_childNodes.mp ?_⟩
    rw [← hkids]
    exact List.mem_map.mpr ⟨b, hb, rfl⟩

/-- A branch holds views of the tree that lie beneath its top. -/
theorem of_mem (h : t.Spans b) {u : ViewId} {n : ViewNode} (hu : (u, n) ∈ b.flatten) :
    t.get? u = some n ∧ t.Within u b.id := by
  induction h with
  | @mk v m bs hv hkids hall ih =>
    rw [Branch.flatten_mk] at hu
    rcases List.mem_cons.mp hu with hu | hu
    · obtain ⟨rfl, rfl⟩ := Prod.mk.inj hu
      exact ⟨hv, .refl _⟩
    · obtain ⟨b, hb, hu⟩ := List.mem_flatMap.mp hu
      obtain ⟨hget, hwithin⟩ := ih b hb hu
      obtain ⟨_, hb', hp⟩ := child (.mk hv hkids hall) hb
      exact ⟨hget, hwithin.trans (.step hb' hp (.refl _))⟩

/-- A branch holds every view that lies beneath one of its views. -/
theorem mem_of_parent (h : t.Spans b) {u p : ViewId} {n m : ViewNode}
    (hp : (p, m) ∈ b.flatten) (hu : t.get? u = some n) (hup : n.parent = some p) :
    (u, n) ∈ b.flatten := by
  induction h with
  | @mk v k bs hv hkids hall ih =>
    rw [Branch.flatten_mk] at hp ⊢
    refine List.mem_cons_of_mem _ (List.mem_flatMap.mpr ?_)
    rcases List.mem_cons.mp hp with hp | hp
    · obtain ⟨rfl, rfl⟩ := Prod.mk.inj hp
      have hc : (u, n) ∈ t.childNodes p := mem_childNodes.mpr ⟨hu, hup⟩
      rw [← hkids] at hc
      obtain ⟨c, hcb, he⟩ := List.mem_map.mp hc
      obtain ⟨rfl, rfl⟩ := Prod.mk.inj he
      refine ⟨c, hcb, ?_⟩
      obtain ⟨cv, cn, cs⟩ := c
      rw [Branch.flatten_mk]
      exact List.mem_cons_self
    · obtain ⟨c, hc, hp⟩ := List.mem_flatMap.mp hp
      exact ⟨c, hc, ih c hc hp⟩

theorem mem_of_within (hw : t.WellFormed) (h : t.Spans b) {u : ViewId} {n : ViewNode}
    (hu : t.get? u = some n) (hin : t.Within u b.id) : (u, n) ∈ b.flatten := by
  generalize ha : b.id = a at hin
  induction hin generalizing n with
  | refl v =>
    cases h with
    | mk hv _ _ =>
      obtain rfl : _ = v := ha
      obtain rfl := Option.some.inj (hv.symm.trans hu)
      rw [Branch.flatten_mk]
      exact List.mem_cons_self
  | step hv hp _ ih =>
    obtain rfl := Option.some.inj (hv.symm.trans hu)
    obtain ⟨m, hm⟩ := exists_parent hw hv hp
    exact h.mem_of_parent (ih hm ha) hv hp

/-- Branches of two siblings have no view in common. -/
theorem disjoint (hw : t.WellFormed) {v : ViewId} {n : ViewNode} {bs : List Branch}
    (h : t.Spans (.mk v n bs)) :
    bs.Pairwise fun b c => ∀ u m m', (u, m) ∈ b.flatten → (u, m') ∉ c.flatten := by
  have hids : bs.Pairwise fun b c => b.id < c.id := by
    cases h with
    | mk hv hkids hall =>
      have := t.childNodes_pairwise v
      rw [← hkids, List.pairwise_map] at this
      exact this
  refine hids.imp_of_mem ?_
  intro b c hb hc hlt u m m' hub huc
  obtain ⟨hsb, hgb, hpb⟩ := h.child hb
  obtain ⟨hsc, hgc, hpc⟩ := h.child hc
  exact Nat.ne_of_lt hlt
    (Within.sibling_eq hw hgb hpb hgc hpc (hsb.of_mem hub).2 (hsc.of_mem huc).2)

end Spans

/-- The walk meets exactly the views of the tree. -/
theorem mem_preorder (hw : t.WellFormed) {v : ViewId} {n : ViewNode} :
    (v, n) ∈ t.preorder ↔ t.get? v = some n := by
  unfold preorder
  cases hb : t.trunk? with
  | none =>
    have hnil : t.nodes = [] := by simpa [trunk?] using hb
    simp [get?, hnil]
  | some b =>
    obtain ⟨hs, hroot⟩ := trunk_spans hw hb
    refine ⟨fun h => (hs.of_mem h).1, fun h => hs.mem_of_within hw h ?_⟩
    rw [hroot]
    exact .to_root hw h

theorem climb_eq_cons {steps : Nat} (hsteps : 0 < steps) (v : ViewId) :
    ∃ above, t.climb steps v = v :: above := by
  obtain ⟨steps, rfl⟩ := Nat.exists_eq_succ_of_ne_zero (Nat.ne_of_gt hsteps)
  rw [climb]
  split
  · exact ⟨_, rfl⟩
  · exact ⟨[], rfl⟩

/-- The ancestors of a view are itself and views above it. -/
theorem ancestors_eq_cons {v : ViewId} {n : ViewNode} (h : t.get? v = some n) :
    ∃ above, t.ancestors v = .ok (v :: above) ∧ ∀ a ∈ v :: above, t.Within v a := by
  obtain ⟨above, habove⟩ : ∃ above, t.climb t.size v = v :: above :=
    climb_eq_cons (Nat.zero_lt_of_lt (lt_size_of_get? h)) v
  refine ⟨above, by rw [ancestors_of_get? h, habove], ?_⟩
  intro a ha
  exact Within.of_mem_climb (habove ▸ ha)

/-- The unit views that the walk meets are those of the tree. -/
theorem exists_mem_units (hw : t.WellFormed) {v : ViewId} {u : UnitView} :
    (∃ name, (v, name, u) ∈ t.units) ↔ t.unit? v = some u := by
  simp only [units, List.mem_filterMap, Option.map_eq_some_iff, Prod.mk.injEq, unit?,
    Option.bind_eq_some_iff]
  constructor
  · rintro ⟨name, ⟨w, n⟩, hn, u, hu, rfl, rfl, rfl⟩
    exact ⟨n, (mem_preorder hw).mp hn, hu⟩
  · rintro ⟨n, hn, hu⟩
    exact ⟨n.name, (v, n), (mem_preorder hw).mpr hn, u, hu, rfl, rfl, rfl⟩

end ViewTree

end BrushLink
