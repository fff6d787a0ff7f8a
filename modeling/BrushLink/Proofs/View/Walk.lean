import BrushLink.Proofs.View.WellFormed
import Mathlib.Data.List.Chain

/-! # The walk and the way up

The walk meets views of the tree only, however the tree came about
(`get?_of_mem_preorder`), and in a well-formed tree it meets every view once
(`preorder_perm_range`).  Going up from a view lists exactly the views above it, the nearest
first (`mem_climb`, `climb_pairwise`).

The walk counts levels and the way up counts steps, both from the number of views.  In a
well-formed tree these counts never cut anything off: the walk from a view goes on to all
its children (`walkFrom_eq`), and the way up ends at the root (`climb_getLast?`).
-/
namespace BrushLink.ViewTree
variable {t : ViewTree}

/-! ## The walk -/

theorem get?_of_mem_branch (levels : Nat) {v u : ViewId} {n m : ViewNode}
    (hv : t.get? v = some n) (hu : (u, m) ∈ (t.branch levels v n).flatten) :
    t.get? u = some m := by
  induction levels generalizing v n with
  | zero =>
    rw [branch, Branch.flatten_mk, List.flatMap_nil, List.mem_singleton] at hu
    obtain ⟨rfl, rfl⟩ := Prod.mk.inj hu
    exact hv
  | succ levels ih =>
    rw [branch, Branch.flatten_mk] at hu
    rcases List.mem_cons.mp hu with hu | hu
    · obtain ⟨rfl, rfl⟩ := Prod.mk.inj hu
      exact hv
    · obtain ⟨b, hb, hu⟩ := List.mem_flatMap.mp hu
      obtain ⟨c, hc, rfl⟩ := List.mem_map.mp hb
      exact ih (mem_childNodes.mp hc).1 hu

/-- The walk meets views of the tree only, however the tree came about. -/
theorem get?_of_mem_preorder {v : ViewId} {n : ViewNode} (h : (v, n) ∈ t.preorder) :
    t.get? v = some n := by
  unfold preorder at h
  split at h
  · rename_i b hb
    obtain ⟨m, hm, rfl⟩ := Option.map_eq_some_iff.mp hb
    rw [List.head?_eq_getElem?] at hm
    exact get?_of_mem_branch t.size hm h
  · cases h

theorem exists_node_of_mem_units {v : ViewId} {name : String} {u : UnitView}
    (h : (v, name, u) ∈ t.units) :
    ∃ n, t.get? v = some n ∧ n.name = name ∧ n.content = .unit u := by
  obtain ⟨⟨w, n⟩, hn, hu⟩ := List.mem_filterMap.mp h
  obtain ⟨u', hu', he⟩ := Option.map_eq_some_iff.mp hu
  obtain ⟨rfl, hrest⟩ := Prod.mk.inj he
  obtain ⟨hname, rfl⟩ := Prod.mk.inj hrest
  exact ⟨n, get?_of_mem_preorder hn, hname, ViewContent.unit?_eq_some_iff.mp hu'⟩

theorem name_of_mem_units {v : ViewId} {name : String} {u : UnitView}
    (h : (v, name, u) ∈ t.units) : t.name v = .ok name := by
  obtain ⟨n, hn, rfl, _⟩ := exists_node_of_mem_units h
  exact name_of_get? hn

theorem Spans.flatten_nodup (hw : t.WellFormed) {b : Branch} (h : t.Spans b) :
    (b.flatten.map Prod.fst).Nodup := by
  induction h with
  | @mk v n bs hv hkids hall ih =>
    have hs : t.Spans (.mk v n bs) := .mk hv hkids hall
    rw [Branch.flatten_mk, List.map_cons, List.map_flatMap, List.nodup_cons]
    constructor
    · intro hmem
      obtain ⟨b, hb, hmem⟩ := List.mem_flatMap.mp hmem
      obtain ⟨⟨u, m⟩, hu, he⟩ := List.mem_map.mp hmem
      obtain rfl : u = v := he
      -- whatever is beneath a child came after the child, and the child after its parent
      obtain ⟨hsb, hgb, hpb⟩ := hs.child hb
      exact absurd ((hsb.of_mem hu).2.le hw) (Nat.not_le_of_lt (hw.parent_lt hgb hpb))
    · refine List.nodup_flatMap.mpr ⟨ih, (hs.disjoint hw).imp ?_⟩
      intro b c hdisj u hub huc
      obtain ⟨⟨_, m⟩, hm, rfl⟩ := List.mem_map.mp hub
      obtain ⟨⟨_, m'⟩, hm', rfl⟩ := List.mem_map.mp huc
      exact hdisj _ m m' hm hm'

/-- The walk meets no view twice. -/
theorem preorder_nodup (hw : t.WellFormed) : (t.preorder.map Prod.fst).Nodup := by
  unfold preorder
  split
  · rename_i b hb
    exact (trunk_spans hw hb).1.flatten_nodup hw
  · exact List.nodup_nil

/-- The walk meets every view once. -/
theorem preorder_perm_range (hw : t.WellFormed) :
    (t.preorder.map Prod.fst).Perm (List.range t.size) := by
  rw [List.perm_ext_iff_of_nodup (preorder_nodup hw) List.nodup_range]
  intro v
  rw [List.mem_range]
  constructor
  · intro hv
    obtain ⟨⟨v, n⟩, hn, rfl⟩ := List.mem_map.mp hv
    exact lt_size_of_get? ((mem_preorder hw).mp hn)
  · intro hv
    obtain ⟨n, hn⟩ := exists_get?_of_lt hv
    exact List.mem_map.mpr ⟨(v, n), (mem_preorder hw).mpr hn, rfl⟩

theorem units_nodup (hw : t.WellFormed) : (t.units.map Prod.fst).Nodup := by
  have hids : t.units.map Prod.fst =
      (t.preorder.filter fun v => v.2.content.unit?.isSome).map Prod.fst := by
    rw [units, List.map_filterMap, ← List.filterMap_eq_filter, List.map_filterMap]
    refine List.filterMap_congr fun v _ => ?_
    cases hu : v.2.content.unit? <;> simp [hu, Option.guard]
  rw [hids]
  exact (preorder_nodup hw).sublist (List.filter_sublist.map _)

/-! ## The walk from a view -/

/-- The walk that starts at a view: the view and what lies beneath it, each before its
children.  From a place where there is no view it goes nowhere. -/
def walkFrom (t : ViewTree) (v : ViewId) : List ViewId :=
  match t.get? v with
  | some n => (t.branch t.size v n).flatten.map Prod.fst
  | none => []

theorem walkFrom_of_get? {v : ViewId} {n : ViewNode} (hv : t.get? v = some n) :
    t.walkFrom v = (t.branch t.size v n).flatten.map Prod.fst := by
  rw [walkFrom, hv]

/-- A branch does not depend on the number of levels, if there are enough. -/
theorem branch_eq_branch (hw : t.WellFormed) {levels levels' : Nat} {v : ViewId} {n : ViewNode}
    (hv : t.get? v = some n) (h : t.size ≤ v + levels) (h' : t.size ≤ v + levels') :
    t.branch levels v n = t.branch levels' v n := by
  have hlt : v < t.size := lt_size_of_get? hv
  induction levels generalizing levels' v n with
  | zero => exact absurd hlt (Nat.not_lt_of_le h)
  | succ levels ih =>
    cases levels' with
    | zero => exact absurd hlt (Nat.not_lt_of_le h')
    | succ levels' =>
      rw [branch, branch]
      refine congrArg (Branch.mk v n) (List.map_congr_left fun c hc => ?_)
      obtain ⟨hc, hp⟩ := mem_childNodes.mp hc
      -- a child came later, so it needs one level less
      have hvc : v + 1 ≤ c.1 := hw.parent_lt hc hp
      have hlevels : ∀ k, t.size ≤ v + (k + 1) → t.size ≤ c.1 + k := by
        intro k hk
        have hadd := Nat.add_le_add_right hvc k
        exact Nat.le_trans hk (by rwa [Nat.add_comm k, ← Nat.add_assoc])
      exact ih hc (hlevels _ h) (hlevels _ h') (lt_size_of_get? hc)

/-- The walk from a view is the view and the walks from its children. -/
theorem walkFrom_eq (hw : t.WellFormed) {v : ViewId} {n : ViewNode} (hv : t.get? v = some n) :
    t.walkFrom v = v :: ((t.childNodes v).map Prod.fst).flatMap t.walkFrom := by
  have hsize : t.size ≤ v + (t.size + 1) := by
    exact Nat.le_trans (Nat.le_succ _) (Nat.le_add_left _ _)
  rw [walkFrom_of_get? hv, branch_eq_branch hw hv (Nat.le_add_left _ _) hsize, branch,
    Branch.flatten_mk, List.map_cons, List.map_flatMap, List.flatMap_map, List.flatMap_map]
  refine congrArg (v :: ·) (List.flatMap_congr fun c hc => ?_)
  exact (walkFrom_of_get? (mem_childNodes.mp hc).1).symm

theorem preorder_eq_walkFrom (t : ViewTree) : t.preorder.map Prod.fst = t.walkFrom root := by
  unfold preorder trunk? walkFrom get? root
  rw [List.head?_eq_getElem?]
  cases t.nodes[0]? with
  | none => rfl
  | some n => rfl

/-- The walk starts at the root and does not come back to it. -/
theorem exists_preorder_eq_cons (hw : t.WellFormed) (h : 0 < t.size) :
    ∃ n rest, t.preorder = (root, n) :: rest ∧ ∀ v ∈ rest, v.1 ≠ root := by
  obtain ⟨n, hn⟩ := exists_get?_of_lt h
  have hids := t.preorder_eq_walkFrom.trans (walkFrom_eq hw hn)
  have hnodup := preorder_nodup hw
  cases hwalk : t.preorder with
  | nil =>
    rw [hwalk] at hids
    cases hids
  | cons r rest =>
    obtain ⟨v, m⟩ := r
    rw [hwalk, List.map_cons] at hids hnodup
    obtain rfl : v = root := (List.cons.inj hids).1
    refine ⟨m, rest, rfl, fun w hmem he => (List.nodup_cons.mp hnodup).1 ?_⟩
    exact List.mem_map.mpr ⟨w, hmem, he⟩

/-- The walk from a view meets exactly the views at or beneath it. -/
theorem mem_walkFrom (hw : t.WellFormed) {v a : ViewId} (hv : v < t.size) :
    v ∈ t.walkFrom a ↔ t.Within v a := by
  obtain ⟨n, hn⟩ := exists_get?_of_lt hv
  cases ha : t.get? a with
  | none =>
    -- what lies above a view is in the tree
    have hnone : ¬ t.Within v a := by
      intro h
      obtain ⟨m, hm⟩ := exists_get?_of_lt (Nat.lt_of_le_of_lt (h.le hw) hv)
      rw [ha] at hm
      cases hm
    rw [walkFrom, ha]
    exact iff_of_false List.not_mem_nil hnone
  | some m =>
    have hs : t.Spans (t.branch t.size a m) := branch_spans hw _ ha (Nat.le_add_left _ _)
    rw [walkFrom_of_get? ha, List.mem_map]
    constructor
    · rintro ⟨⟨u, k⟩, hmem, rfl⟩
      simpa using (hs.of_mem hmem).2
    · intro h
      exact ⟨(v, n), hs.mem_of_within hw hn (by simpa using h), rfl⟩

/-! ## The way up -/

/-- Going up from a view leads to exactly the views above it. -/
theorem mem_climb (hw : t.WellFormed) {steps : Nat} {v a : ViewId} (hv : v < steps) :
    a ∈ t.climb steps v ↔ t.Within v a := by
  refine ⟨Within.of_mem_climb, fun h => ?_⟩
  induction h generalizing steps with
  | refl v =>
    obtain ⟨above, he⟩ := climb_eq_cons (t := t) (Nat.zero_lt_of_lt hv) v
    rw [he]
    exact List.mem_cons_self
  | @step v p a n hget hp _ ih =>
    obtain ⟨steps, rfl⟩ := Nat.exists_eq_succ_of_ne_zero (Nat.ne_zero_of_lt hv)
    have hparent : (t.get? v).bind ViewNode.parent = some p := by rw [hget, Option.bind_some, hp]
    rw [climb, hparent]
    exact List.mem_cons_of_mem _
      (ih (Nat.lt_of_lt_of_le (hw.parent_lt hget hp) (Nat.le_of_lt_succ hv)))

/-- The nearer of two views on the way up lies beneath the other. -/
theorem climb_pairwise (t : ViewTree) (steps : Nat) (v : ViewId) :
    (t.climb steps v).Pairwise fun a b => t.Within a b := by
  induction steps generalizing v with
  | zero => exact List.Pairwise.nil
  | succ steps ih =>
    rw [climb]
    split
    · rename_i p hp
      obtain ⟨n, hn, hp⟩ := Option.bind_eq_some_iff.mp hp
      refine List.pairwise_cons.mpr ⟨fun a ha => ?_, ih p⟩
      exact .step hn hp (Within.of_mem_climb ha)
    · exact List.pairwise_singleton _ _

/-- Going up, each view came before the one beneath it. -/
theorem climb_descending (hw : t.WellFormed) (steps : Nat) (v : ViewId) :
    (t.climb steps v).Pairwise fun u a => a < u := by
  induction steps generalizing v with
  | zero => exact List.Pairwise.nil
  | succ steps ih =>
    rw [climb]
    split
    · rename_i p hp
      obtain ⟨n, hn, hp⟩ := Option.bind_eq_some_iff.mp hp
      refine List.pairwise_cons.mpr ⟨fun a ha => ?_, ih p⟩
      exact Nat.lt_of_le_of_lt ((Within.of_mem_climb ha).le hw) (hw.parent_lt hn hp)
    · exact List.pairwise_singleton _ _

/-- Going up leads from each view to its parent. -/
theorem climb_isChain (t : ViewTree) (steps : Nat) (v : ViewId) :
    (t.climb steps v).IsChain fun u p => t.parent u = .ok (some p) := by
  induction steps generalizing v with
  | zero => exact .nil
  | succ steps ih =>
    rw [climb]
    split
    · rename_i p hp
      obtain ⟨n, hn, hp⟩ := Option.bind_eq_some_iff.mp hp
      refine List.isChain_cons.mpr ⟨fun q hq => ?_, ih p⟩
      cases steps with
      | zero => cases hq
      | succ steps =>
        obtain ⟨above, he⟩ := climb_eq_cons (t := t) (Nat.succ_pos steps) p
        rw [he] at hq
        obtain rfl := Option.some.inj hq
        rw [parent_of_get? hn, hp]
    · exact .singleton _

/-- Going up ends at the root. -/
theorem climb_getLast? (hw : t.WellFormed) {steps : Nat} {v : ViewId} {n : ViewNode}
    (hv : t.get? v = some n) (h : v < steps) : (t.climb steps v).getLast? = some root := by
  induction steps generalizing v n with
  | zero => exact absurd h (Nat.not_lt_zero v)
  | succ steps ih =>
    rw [climb, hv, Option.bind_some]
    cases hp : n.parent with
    | none => rw [hw.root_of_orphan hv hp, List.getLast?_singleton]
    | some p =>
      obtain ⟨m, hm⟩ := exists_parent hw hv hp
      have hlt := Nat.lt_of_lt_of_le (hw.parent_lt hv hp) (Nat.le_of_lt_succ h)
      have hlast := ih hm hlt
      simp only [List.getLast?_cons, hlast, Option.getD_some]

theorem isWithin_of_get? {v : ViewId} {n : ViewNode} (hv : t.get? v = some n) (a : ViewId) :
    t.isWithin v a = .ok ((t.climb t.size v).contains a) := by
  rw [isWithin, ancestors_of_get? hv]
  rfl

end BrushLink.ViewTree
