import BrushLink.Proofs.View.Growth
import BrushLink.Proofs.View.Walk
import Mathlib.Data.List.Sort

/-! # The order of creation

Views are known by their place in the order of creation, and all that is worked out of a
tree goes through them in the order of the walk.  In the tree of a specification the two
orders are one: the walk meets the views `0, 1, 2, …` (`preorder_eq_range`).

The reason is that such a tree is grown depth first.  Between a view and one beneath it,
all views are beneath it (`DepthFirst.between`), so whatever is beneath a view came before
the next sibling of that view (`DepthFirst.lt_sibling`), as the walk wants it.

Names are checked as views are added.  So each view is found under its name
(`find?_eq_some_iff`), and what a tree tells about its views is consistent (`Orderly`).
-/
namespace BrushLink

namespace ViewTree
variable {t : ViewTree}

/-! ## The walk -/

/-- Between a view and one beneath it, all views are beneath it. -/
theorem DepthFirst.between (hd : t.DepthFirst) {a w u : Nat} (haw : a ≤ w) (hwu : w ≤ u)
    (h : t.Within u a) : t.Within w a := by
  -- going back from `u` one view at a time; the view before one beneath `a` is beneath `a`
  induction hwu with
  | refl => exact h
  | @step u hwu ih =>
    apply ih
    have hle : w ≤ u := hwu
    cases h with
    | refl => omega
    | step hu hp h => exact (hd hu hp).trans h

/-- What lies beneath a view came before its next sibling. -/
theorem DepthFirst.lt_sibling (hd : t.DepthFirst) (hw : t.WellFormed) {a b u v : Nat}
    {na nb : ViewNode} (ha : t.get? a = some na) (hpa : na.parent = some v)
    (hb : t.get? b = some nb) (hpb : nb.parent = some v) (hab : a < b) (h : t.Within u a) :
    u < b := by
  by_contra hlt
  have hba : t.Within b a := hd.between (by omega) (by omega) h
  have heq : a = b := Within.sibling_eq hw ha hpa hb hpb hba (.refl b)
  omega

theorem Spans.flatten_ascending (hw : t.WellFormed) (hd : t.DepthFirst) {b : Branch}
    (h : t.Spans b) : (b.flatten.map Prod.fst).Pairwise fun v u => v < u := by
  induction h with
  | @mk v n bs hv hkids hall ih =>
    have hs : t.Spans (.mk v n bs) := .mk hv hkids hall
    have hids : bs.Pairwise fun b c => b.id < c.id := by
      have hpairwise := t.childNodes_pairwise v
      rw [← hkids, List.pairwise_map] at hpairwise
      exact hpairwise
    rw [Branch.flatten_mk, List.map_cons, List.map_flatMap, List.pairwise_cons]
    constructor
    · intro u hu
      obtain ⟨b, hb, hu⟩ := List.mem_flatMap.mp hu
      obtain ⟨⟨_, m⟩, hmem, rfl⟩ := List.mem_map.mp hu
      obtain ⟨hsb, hgb, hpb⟩ := hs.child hb
      exact Nat.lt_of_lt_of_le (hw.parent_lt hgb hpb) ((hsb.of_mem hmem).2.le hw)
    · refine List.pairwise_flatMap.mpr ⟨ih, hids.imp_of_mem ?_⟩
      intro b c hb hc hbc u hu w hw'
      obtain ⟨⟨_, m⟩, hub, rfl⟩ := List.mem_map.mp hu
      obtain ⟨⟨_, k⟩, hwc, rfl⟩ := List.mem_map.mp hw'
      obtain ⟨hsb, hgb, hpb⟩ := hs.child hb
      obtain ⟨hsc, hgc, hpc⟩ := hs.child hc
      exact Nat.lt_of_lt_of_le (hd.lt_sibling hw hgb hpb hgc hpc hbc (hsb.of_mem hub).2)
        ((hsc.of_mem hwc).2.le hw)

theorem preorder_ascending (hw : t.WellFormed) (hd : t.DepthFirst) :
    (t.preorder.map Prod.fst).Pairwise fun v u => v < u := by
  unfold preorder
  split
  · rename_i b hb
    exact (trunk_spans hw hb).1.flatten_ascending hw hd
  · exact List.Pairwise.nil

/-- The walk meets the views in the order of their creation. -/
theorem preorder_eq_range (hw : t.WellFormed) (hd : t.DepthFirst) :
    t.preorder.map Prod.fst = List.range t.size := by
  refine (preorder_perm_range hw).eq_of_pairwise ?_ (preorder_ascending hw hd) List.pairwise_lt_range
  intro v u _ _ hvu huv
  exact absurd hvu (Nat.lt_asymm huv)

/-! ## Names -/

/-- Where no two views have the same name, looking for a name finds the view that has it. -/
theorem find?_eq_some_iff (hn : (t.nodes.map ViewNode.name).Nodup) {v : ViewId} {name : String} :
    t.find? name = some v ↔ ∃ n, t.get? v = some n ∧ n.name = name := by
  have hinj : ∀ {i j : Nat} {n m : ViewNode}, t.nodes[i]? = some n → t.nodes[j]? = some m →
      n.name = m.name → i = j := by
    intro i j n m hi hj he
    have hlt : i < (t.nodes.map ViewNode.name).length := by
      rw [List.length_map]
      exact (List.getElem?_eq_some_iff.mp hi).1
    refine (List.getElem?_inj hlt hn).mp ?_
    rw [List.getElem?_map, List.getElem?_map, hi, hj, Option.map_some, Option.map_some, he]
  rw [find?, List.findIdx?_eq_some_iff_getElem]
  constructor
  · rintro ⟨hv, hname, -⟩
    exact ⟨_, List.getElem?_eq_getElem hv, of_decide_eq_true hname⟩
  · rintro ⟨n, hv, rfl⟩
    obtain ⟨hlt, rfl⟩ := List.getElem?_eq_some_iff.mp hv
    refine ⟨hlt, decide_eq_true rfl, fun j hj hname => ?_⟩
    have heq := hinj (List.getElem?_eq_getElem (Nat.lt_trans hj hlt)) hv (of_decide_eq_true hname)
    omega

/-! ## Children -/

theorem children_eq_ok {v : ViewId} {cs : List ViewId} :
    t.children v = .ok cs ↔ (∃ n, t.get? v = some n) ∧ cs = (t.childNodes v).map Prod.fst := by
  rw [children, map_node_eq_ok, exists_and_right, eq_comm]

theorem children_nodup (t : ViewTree) (v : ViewId) : ((t.childNodes v).map Prod.fst).Nodup :=
  List.Pairwise.imp (fun h => Nat.ne_of_lt h) (List.pairwise_map.mpr (t.childNodes_pairwise v))

theorem mem_children {v u : ViewId} :
    u ∈ (t.childNodes v).map Prod.fst ↔ ∃ n, t.get? u = some n ∧ n.parent = some v := by
  rw [List.mem_map]
  constructor
  · rintro ⟨⟨u, n⟩, h, rfl⟩
    exact ⟨n, mem_childNodes.mp h⟩
  · rintro ⟨n, h⟩
    exact ⟨(u, n), mem_childNodes.mpr h, rfl⟩

/-- A view is listed once by its parent, and by no other view. -/
theorem count_children {v q : ViewId} {n : ViewNode} (hv : t.get? v = some n) :
    ((t.childNodes q).map Prod.fst).count v = if n.parent = some q then 1 else 0 := by
  rw [(t.children_nodup q).count]
  refine if_congr (mem_children.trans ?_) rfl rfl
  constructor
  · rintro ⟨m, hm, hp⟩
    rwa [Option.some.inj (hv.symm.trans hm)]
  · exact fun hp => ⟨n, hv, hp⟩

/-! ## The tree of a specification -/

theorem ofSpec_depthFirst {spec : ViewSpec} (h : ofSpec spec = .ok t) : t.DepthFirst :=
  (ofSpec_planted h).grows.depthFirst fun hv => absurd hv (get?_empty_ne_some _ _)

theorem ofSpec_names_nodup {spec : ViewSpec} (h : ofSpec spec = .ok t) :
    (t.nodes.map ViewNode.name).Nodup :=
  (ofSpec_planted h).grows.names_nodup List.nodup_nil

/-- A tree in good order. -/
structure Orderly (t : ViewTree) : Prop where
  /-- The walk meets the views in the order of their creation. -/
  walk : t.preorder.map Prod.fst = List.range t.size
  /-- No two views have the same name. -/
  names : (t.nodes.map ViewNode.name).Nodup
  /-- A view is found under its name. -/
  found : ∀ v < t.size, ∃ name, t.name v = .ok name ∧ t.find? name = some v
  /-- A unit view has no children. -/
  leaves : ∀ v u, t.unit? v = some u → t.children v = .ok []
  /-- The root is nobody's child. -/
  root_unlisted : t.parent root = .ok none ∧ ∀ q cs, t.children q = .ok cs → root ∉ cs
  /-- Every other view has a parent that lists it, once, and no other view lists it. -/
  listed : ∀ v < t.size, v ≠ root → ∃ p, t.parent v = .ok (some p) ∧
    (∃ cs, t.children p = .ok cs) ∧
    ∀ q cs, t.children q = .ok cs → cs.count v = if q = p then 1 else 0

/-- **Views are created in the order of the walk.**  The tree of a specification lists its
views as the walk meets them, under names that differ; unit views have no children, and
every view but the root is a child of its parent, once, and of no other view. -/
theorem ofSpec_orderly {spec : ViewSpec} (h : ofSpec spec = .ok t) : t.Orderly := by
  obtain ⟨hw, hl⟩ := ofSpec_wellFormed h
  have hnames := ofSpec_names_nodup h
  constructor
  case walk => exact preorder_eq_range hw (ofSpec_depthFirst h)
  case names => exact hnames
  case found =>
    intro v hv
    obtain ⟨n, hn⟩ := exists_get?_of_lt hv
    exact ⟨n.name, name_of_get? hn, (find?_eq_some_iff hnames).mpr ⟨n, hn, rfl⟩⟩
  case leaves =>
    intro v u hu
    obtain ⟨n, hn, hunit⟩ := Option.bind_eq_some_iff.mp hu
    refine children_eq_ok.mpr ⟨⟨n, hn⟩, (List.eq_nil_iff_forall_not_mem.mpr fun w hmem => ?_).symm⟩
    obtain ⟨m, hm, hp⟩ := mem_children.mp hmem
    obtain ⟨n', k, hn', hk⟩ := hl hm hp
    obtain rfl := Option.some.inj (hn.symm.trans hn')
    rw [hk] at hunit
    cases hunit
  case root_unlisted =>
    obtain ⟨n, hn, hp⟩ := (ofSpec_planted h).top
    refine ⟨(parent_of_get? hn).trans (congrArg _ hp), fun q cs hcs hmem => ?_⟩
    obtain ⟨-, rfl⟩ := children_eq_ok.mp hcs
    obtain ⟨m, hm, hq⟩ := mem_children.mp hmem
    exact absurd (hw.parent_lt hm hq) (Nat.not_lt_zero q)
  case listed =>
    intro v hv hne
    obtain ⟨n, hn⟩ := exists_get?_of_lt hv
    cases hp : n.parent with
    | none => exact absurd (hw.root_of_orphan hn hp) hne
    | some p =>
      refine ⟨p, (parent_of_get? hn).trans (congrArg _ hp),
        ⟨_, children_eq_ok.mpr ⟨exists_parent hw hn hp, rfl⟩⟩, fun q cs hcs => ?_⟩
      obtain ⟨-, rfl⟩ := children_eq_ok.mp hcs
      rw [count_children hn, hp]
      refine if_congr ?_ rfl rfl
      rw [Option.some.injEq, eq_comm]

end ViewTree

/-- One of each arrangement, a template that is repeated with a layer inside among them. -/
def ViewSpec.everyArrangement : ViewSpec :=
  .concatenated default
    [.layered default
        [.unit default .point, .unit { (default : ViewHead) with name := "top" } .bar],
      .repeated default (.grid ["A"] ["A", "B"]) (.layered default [.unit default .point]),
      .faceted default (.unit default .point)]

theorem ViewTree.ofSpec_orderly_everyArrangement :
    ∃ t, ofSpec .everyArrangement = .ok t ∧ t.size = 11 ∧ t.find? "top" = some 3 ∧ t.Orderly :=
  ⟨_, rfl, rfl, by decide, @ofSpec_orderly _ .everyArrangement rfl⟩

end BrushLink
