import BrushLink.Proofs.View.Creation

/-! # Trees made by additions

A tree may be made by hand, one view after the other, children of different views by turns.
An addition that names an unknown parent, or a second root, is refused and leaves the tree
as it was (`attempt`).  What is made in this way is well formed (`grown_wellFormed`), and a
well-formed tree is a tree in every sense (`Treelike`): the walk from a view goes to its
children and comes to an end, going up from a view ends at the root, and the two agree on
what lies beneath a view.

Places and children of views are read off the order of creation and the parents.  Views
may as well store them: a new view stores its place, and its parent puts it after the
children that it has.  What is stored is at all times what is read off
(`Stores.attempt`, `stores_grown`).
-/
namespace BrushLink

/-- A view that is to be added: its name, its parent unless it is the root, and what it
is. -/
structure Addition where
  name : String
  parent : Option ViewId
  content : ViewContent

namespace ViewTree
variable {t t' : ViewTree}

/-- Add a view.  Where that is refused, the tree stays as it is. -/
def attempt (t : ViewTree) (a : Addition) : ViewTree :=
  match t.add a.name a.parent a.content with
  | .ok t' => t'
  | .error _ => t

/-- The tree made by additions from nothing. -/
def grown (as : List Addition) : ViewTree := as.foldl attempt empty

theorem attempt_of_accepts {a : Addition} (h : t.Accepts a.parent) :
    t.attempt a = ⟨t.nodes ++ [⟨a.name, a.parent, a.content⟩]⟩ := by
  rw [attempt, add_eq_ok.mpr ⟨rfl, h⟩]

theorem attempt_of_not_accepts {a : Addition} (h : ¬ t.Accepts a.parent) :
    (∃ fault, t.add a.name a.parent a.content = .error fault) ∧ t.attempt a = t := by
  rw [attempt]
  cases hadd : t.add a.name a.parent a.content with
  | ok t' => exact absurd (add_eq_ok.mp hadd).2 h
  | error fault => exact ⟨⟨fault, rfl⟩, rfl⟩

theorem WellFormed.attempt (hw : t.WellFormed) (a : Addition) : (t.attempt a).WellFormed := by
  by_cases h : t.Accepts a.parent
  · rw [attempt_of_accepts h]
    exact hw.append h
  · rwa [(attempt_of_not_accepts h).2]

theorem grown_wellFormed (as : List Addition) : (grown as).WellFormed := by
  have hrun : ∀ t : ViewTree, t.WellFormed → (as.foldl ViewTree.attempt t).WellFormed := by
    induction as with
    | nil => exact fun t hw => hw
    | cons a as ih => exact fun t hw => ih _ (hw.attempt a)
  exact hrun empty empty_wellFormed

/-- What it is for the views of a tree to be arranged as a tree. -/
structure Treelike (t : ViewTree) : Prop where
  /-- The walk meets every view once. -/
  walk : (t.preorder.map Prod.fst).Perm (List.range t.size)
  /-- The walk of the whole tree starts at the root. -/
  walk_root : t.preorder.map Prod.fst = t.walkFrom root
  /-- The walk from a view goes to the view and then to its children, one after the other. -/
  walk_step : ∀ v < t.size, ∃ cs, t.children v = .ok cs ∧ t.walkFrom v = v :: cs.flatMap t.walkFrom
  /-- Going up from a view leads from parent to parent, to no view twice, and ends at the
  root. -/
  ancestors : ∀ v < t.size, ∃ vs, t.ancestors v = .ok vs ∧ vs.head? = some v ∧
    vs.IsChain (fun u p => t.parent u = .ok (some p)) ∧ vs.Nodup ∧ vs.getLast? = some root
  /-- Every view is listed in the place that it is known by, and after its parent. -/
  placed : ∀ v n, t.nodes[v]? = some n →
    t.node v = .ok n ∧ (n.parent = none → v = root) ∧ ∀ p, n.parent = some p → p < v
  /-- A view lists the views that have it as parent, in the order of their addition. -/
  children : ∀ v cs, t.children v = .ok cs →
    cs.Pairwise (fun u w => u < w) ∧ ∀ u, u ∈ cs ↔ t.parent u = .ok (some v)
  /-- What lies at or beneath a view is what the walk from it meets. -/
  within : ∀ v < t.size, ∀ a, ∃ b, t.isWithin v a = .ok b ∧ (b = true ↔ v ∈ t.walkFrom a)

/-- What an addition makes of a tree: one more view, and it is the last child of its
parent. -/
structure Added (t : ViewTree) (a : Addition) (t' : ViewTree) : Prop where
  accepted : t.add a.name a.parent a.content = .ok t'
  size : t'.size = t.size + 1
  node : t'.node t.size = .ok ⟨a.name, a.parent, a.content⟩
  kept : ∀ v < t.size, t'.node v = t.node v
  childless : t'.children t.size = .ok []
  children : ∀ v < t.size, ∃ cs, t.children v = .ok cs ∧
    t'.children v = .ok (if a.parent = some v then cs ++ [t.size] else cs)

theorem parent_eq_some_iff {v p : ViewId} :
    t.parent v = .ok (some p) ↔ ∃ n, t.get? v = some n ∧ n.parent = some p :=
  map_node_eq_ok

theorem WellFormed.treelike (hw : t.WellFormed) : t.Treelike := by
  constructor
  case walk => exact preorder_perm_range hw
  case walk_root => exact preorder_eq_walkFrom t
  case walk_step =>
    intro v hv
    obtain ⟨n, hn⟩ := exists_get?_of_lt hv
    exact ⟨_, children_eq_ok.mpr ⟨⟨n, hn⟩, rfl⟩, walkFrom_eq hw hn⟩
  case ancestors =>
    intro v hv
    obtain ⟨n, hn⟩ := exists_get?_of_lt hv
    obtain ⟨above, habove⟩ := climb_eq_cons (t := t) (Nat.zero_lt_of_lt hv) v
    refine ⟨_, ancestors_of_get? hn, ?_, t.climb_isChain _ v, ?_, climb_getLast? hw hn hv⟩
    · rw [habove, List.head?_cons]
    · exact (climb_descending hw _ v).imp fun h => Nat.ne_of_gt h
  case placed =>
    intro v n hv
    exact ⟨node_eq_ok.mpr hv, hw.root_of_orphan hv, fun p => hw.parent_lt hv⟩
  case children =>
    intro v cs hcs
    obtain ⟨-, rfl⟩ := children_eq_ok.mp hcs
    refine ⟨List.pairwise_map.mpr (t.childNodes_pairwise v), fun u => ?_⟩
    rw [mem_children, parent_eq_some_iff]
  case within =>
    intro v hv a
    obtain ⟨n, hn⟩ := exists_get?_of_lt hv
    refine ⟨_, isWithin_of_get? hn a, ?_⟩
    rw [List.contains_iff_mem, mem_climb hw hv, mem_walkFrom hw hv]

theorem childNodes_append (t : ViewTree) (n : ViewNode) (v : ViewId) :
    (ViewTree.mk (t.nodes ++ [n])).childNodes v =
      t.childNodes v ++ if n.parent = some v then [(t.size, n)] else [] := by
  rw [childNodes, childNodes, List.mapIdx_concat, List.filter_append]
  congr 1
  by_cases h : n.parent = some v <;> simp [h, size]

theorem added_attempt (hw : t.WellFormed) {a : Addition} (h : t.Accepts a.parent) :
    t.Added a (t.attempt a) := by
  have hadd := attempt_of_accepts h
  have hget : ∀ v m, (t.attempt a).get? v = some m ↔
      t.get? v = some m ∨ v = t.size ∧ ⟨a.name, a.parent, a.content⟩ = m := by
    intro v m
    rw [hadd]
    exact get?_append
  have hchildren : ∀ v, (t.attempt a).childNodes v =
      t.childNodes v ++
        if a.parent = some v then [(t.size, ⟨a.name, a.parent, a.content⟩)] else [] := by
    intro v
    rw [hadd]
    exact t.childNodes_append _ v
  constructor
  case accepted => exact add_eq_ok.mpr ⟨hadd, h⟩
  case size =>
    rw [hadd, ViewTree.size, List.length_append]
    rfl
  case node => exact node_eq_ok.mpr ((hget _ _).mpr (Or.inr ⟨rfl, rfl⟩))
  case kept =>
    intro v hv
    obtain ⟨n, hn⟩ := exists_get?_of_lt hv
    rw [node_eq_ok.mpr hn, node_eq_ok.mpr ((hget v n).mpr (Or.inl hn))]
  case childless =>
    refine children_eq_ok.mpr ⟨⟨_, (hget _ _).mpr (Or.inr ⟨rfl, rfl⟩)⟩, ?_⟩
    refine (List.eq_nil_iff_forall_not_mem.mpr fun u hu => ?_).symm
    -- a child of the last view would come after it
    obtain ⟨m, hm, hp⟩ := mem_children.mp hu
    have hlt : t.size < u := (hw.attempt a).parent_lt hm hp
    rcases (hget u m).mp hm with hm | ⟨rfl, -⟩
    · exact absurd (lt_size_of_get? hm) (Nat.lt_asymm hlt)
    · exact absurd hlt (Nat.lt_irrefl _)
  case children =>
    intro v hv
    obtain ⟨n, hn⟩ := exists_get?_of_lt hv
    refine ⟨_, children_eq_ok.mpr ⟨⟨n, hn⟩, rfl⟩,
      children_eq_ok.mpr ⟨⟨n, (hget v n).mpr (Or.inl hn)⟩, ?_⟩⟩
    rw [hchildren, List.map_append]
    split
    · rfl
    · exact (List.append_nil _).symm

end ViewTree

/-! ## Stored places and children -/

/-- A view that stores its place and its children. -/
structure StoredNode where
  id : ViewId
  node : ViewNode
  children : List ViewId
  deriving DecidableEq

/-- A tree of views that store their places and children. -/
structure StoredTree where
  nodes : List StoredNode
  deriving DecidableEq

namespace StoredTree
variable {s : StoredTree} {t : ViewTree} {a : Addition}

/-- Add a view, and put it after the children of its parent.  Where that is refused, the
tree stays as it is. -/
def attempt (s : StoredTree) (a : Addition) : StoredTree :=
  let id := s.nodes.length
  let added : StoredNode := ⟨id, ⟨a.name, a.parent, a.content⟩, []⟩
  match a.parent with
  | some p =>
    if p < id then
      ⟨s.nodes.modify p (fun n => { n with children := n.children ++ [id] }) ++ [added]⟩
    else s
  | none => if id = 0 then ⟨[added]⟩ else s

/-- The tree made by additions from nothing. -/
def grown (as : List Addition) : StoredTree := as.foldl attempt ⟨[]⟩

/-- The views are those of a tree, and they store the places and children that they have
there. -/
structure Stores (s : StoredTree) (t : ViewTree) : Prop where
  size : s.nodes.length = t.size
  node : ∀ v n, s.nodes[v]? = some n →
    n.id = v ∧ t.node v = .ok n.node ∧ t.children v = .ok n.children

theorem attempt_of_not_accepts (hsize : s.nodes.length = t.size) (h : ¬ t.Accepts a.parent) :
    s.attempt a = s := by
  unfold attempt
  cases hp : a.parent with
  | none =>
    rw [hp] at h
    exact if_neg (hsize ▸ h)
  | some p =>
    rw [hp] at h
    exact if_neg (hsize ▸ h)

theorem attempt_of_accepts (hsize : s.nodes.length = t.size) (h : t.Accepts a.parent) :
    (s.attempt a).nodes =
      (s.nodes.mapIdx fun v n =>
        if a.parent = some v then { n with children := n.children ++ [t.size] } else n) ++
      [⟨t.size, ⟨a.name, a.parent, a.content⟩, []⟩] := by
  unfold attempt
  cases hp : a.parent with
  | none =>
    rw [hp] at h
    have hnil : s.nodes = [] := List.eq_nil_of_length_eq_zero (hsize.trans h)
    have hzero : t.size = 0 := h
    simp [hnil, hzero]
  | some p =>
    rw [hp] at h
    have hlt : p < t.size := h
    have hparent : s.nodes.modify p (fun n => { n with children := n.children ++ [t.size] }) =
        s.nodes.mapIdx fun v n =>
          if p = v then { n with children := n.children ++ [t.size] } else n := by
      refine List.ext_getElem? fun v => ?_
      rw [List.getElem?_modify, List.getElem?_mapIdx]
      rfl
    simp only [hsize, if_pos hlt, hparent, Option.some.injEq]

/-- An addition to both trees keeps them in step. -/
theorem Stores.attempt (hs : s.Stores t) (hw : t.WellFormed) (a : Addition) :
    (s.attempt a).Stores (t.attempt a) := by
  by_cases h : t.Accepts a.parent
  · have hadded := ViewTree.added_attempt hw h
    have hnodes := attempt_of_accepts hs.size h
    constructor
    case size =>
      rw [hnodes, hadded.size, List.length_append, List.length_mapIdx, hs.size]
      rfl
    case node =>
      intro v n hn
      rw [hnodes, List.getElem?_append, List.length_mapIdx, hs.size] at hn
      split at hn
      · rename_i hv
        rw [List.getElem?_mapIdx] at hn
        obtain ⟨n₀, hn₀, rfl⟩ := Option.map_eq_some_iff.mp hn
        obtain ⟨hid, hnode, hchildren⟩ := hs.node v n₀ hn₀
        obtain ⟨cs, hcs, hcs'⟩ := hadded.children v hv
        obtain rfl := Except.ok.inj (hcs.symm.trans hchildren)
        rw [hadded.kept v hv, hcs']
        split <;> exact ⟨hid, hnode, rfl⟩
      · -- the new view is the last one
        rename_i hv
        obtain ⟨hlast, hn⟩ := List.getElem?_eq_some_iff.mp hn
        rw [List.getElem_singleton] at hn
        subst hn
        have hv : v = t.size :=
          Nat.le_antisymm (Nat.sub_eq_zero_iff_le.mp (Nat.lt_one_iff.mp hlast)) (Nat.not_lt.mp hv)
        exact ⟨hv.symm, hv ▸ hadded.node, hv ▸ hadded.childless⟩
  · rwa [attempt_of_not_accepts hs.size h, (ViewTree.attempt_of_not_accepts h).2]

/-- So does any number of additions. -/
theorem stores_grown (as : List Addition) : (grown as).Stores (.grown as) := by
  have hrun : ∀ (s : StoredTree) (t : ViewTree), t.WellFormed → s.Stores t →
      (as.foldl StoredTree.attempt s).Stores (as.foldl ViewTree.attempt t) := by
    induction as with
    | nil => exact fun s t _ hs => hs
    | cons a as ih => exact fun s t hw hs => ih _ _ (hw.attempt a) (hs.attempt hw a)
  refine hrun ⟨[]⟩ .empty ViewTree.empty_wellFormed ⟨rfl, ?_⟩
  intro v n hn
  cases hn

end StoredTree

namespace ViewTree

/-- **Additions make a tree.**  Whatever additions were tried, in whatever order, the views
are arranged as a tree.  One more addition gives its parent one more child, after those it
has, and changes nothing else; if its parent is unknown, or it would be a second root, it is
refused and changes nothing at all.  Views that store their places and children have those
of the tree at all times. -/
theorem grown_treelike (as : List Addition) :
    (grown as).Treelike ∧ (StoredTree.grown as).Stores (grown as) ∧ ∀ a : Addition,
      ((grown as).Accepts a.parent → (grown as).Added a (grown (as ++ [a]))) ∧
      (¬ (grown as).Accepts a.parent →
        (∃ fault, (grown as).add a.name a.parent a.content = .error fault) ∧
          grown (as ++ [a]) = grown as) := by
  have hw := grown_wellFormed as
  refine ⟨hw.treelike, StoredTree.stores_grown as, fun a => ?_⟩
  have hnext : grown (as ++ [a]) = (grown as).attempt a := List.foldl_append
  rw [hnext]
  exact ⟨added_attempt hw, attempt_of_not_accepts⟩

/-- The children of two views, added by turns; a second root and a child of an unknown view
are refused in between. -/
example :
    let view (parent : Option ViewId) : Addition := ⟨"", parent, .composite ⟨.concat, ∅⟩⟩
    let t := grown [view none, view (some 0), view (some 0), view none, view (some 1),
      view (some 2), view (some 9), view (some 1)]
    t.size = 6 ∧ t.walkFrom root = [0, 1, 3, 5, 2, 4] ∧ t.walkFrom 1 = [1, 3, 5] ∧
      t.ancestors 5 = .ok [5, 1, 0] := by
  decide

end ViewTree

end BrushLink
