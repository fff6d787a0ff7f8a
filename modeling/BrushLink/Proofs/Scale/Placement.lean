import BrushLink.Proofs.Scale.Merging
import BrushLink.Proofs.Scale.Ownership
import BrushLink.Proofs.View.Growth

/-! # Where the scales of a tree are

Requests climb from the unit views, are merged pairwise at every inner view whose
children share the channel, and are settled where they stop.  What comes of all
this is said without it: the scale of a channel at a view is all requests of the
unit views that it owns the channel for, in the order of the walk, merged in one
row (`get?_ofTree`), and so it is made of what these views encode (`made_of_units`).
No settled scale takes the place of another, and a view between a unit view and the
owner has no scale of that channel.

The invariant of a branch speaks of the requests of its own views alone.  Those
whose owner is that of the top are still open (`requests_ofBranch`), those of any
other owner are settled there (`settled_ofBranch`).
-/
namespace BrushLink
open ScaleRequest

/-- The request that a view makes on a channel: none on an inner view. -/
def ViewNode.scaleRequest? (n : ViewNode) (c : Channel) : Option ScaleRequest :=
  n.content.unit?.bind fun u => u.scaleRequest? c

namespace ViewTree
variable {t : ViewTree} {c : Channel} {o : ViewId}

/-- The requests that some views make on a channel whose scale `o` owns for them. -/
def asks (t : ViewTree) (c : Channel) (o : ViewId) (vs : List (ViewId × ViewNode)) :
    List ScaleRequest :=
  vs.filterMap fun v => if t.scaleOwner c v.1 = o then v.2.scaleRequest? c else none

/-- The requests of all unit views whose scale of a channel `o` owns, in the order
of the walk. -/
def requestsFor (t : ViewTree) (o : ViewId) (c : Channel) : List ScaleRequest :=
  t.units.filterMap fun u => if t.scaleOwner c u.1 = o then u.2.2.scaleRequest? c else none

/-- The unit views that have a field on a channel and whose scale of the channel `o`
owns, in the order of the walk. -/
def unitsFor (t : ViewTree) (o : ViewId) (c : Channel) : List UnitView :=
  (t.units.filter fun u => t.scaleOwner c u.1 = o ∧ (u.2.2.field? c).isSome).map fun u => u.2.2

theorem mem_unitsFor (hw : t.WellFormed) {u : UnitView} :
    u ∈ t.unitsFor o c ↔
      (u.field? c).isSome ∧ ∃ v, t.unit? v = some u ∧ t.scaleOwner c v = o := by
  unfold unitsFor
  rw [List.mem_map]
  constructor
  · rintro ⟨⟨v, name, u⟩, hmem, rfl⟩
    obtain ⟨hu, hkeep⟩ := List.mem_filter.mp hmem
    obtain ⟨ho, hf⟩ := of_decide_eq_true hkeep
    exact ⟨hf, v, (exists_mem_units hw).mp ⟨name, hu⟩, ho⟩
  · rintro ⟨hf, v, hu, ho⟩
    obtain ⟨name, hmem⟩ := (exists_mem_units hw).mpr hu
    exact ⟨(v, name, u), List.mem_filter.mpr ⟨hmem, decide_eq_true ⟨ho, hf⟩⟩, rfl⟩

/-- Each of these views makes a request, and no other view does. -/
theorem requestsFor_eq_unitsFor (t : ViewTree) (o : ViewId) (c : Channel) :
    t.requestsFor o c = (t.unitsFor o c).filterMap fun u => u.scaleRequest? c := by
  unfold requestsFor unitsFor
  rw [List.filterMap_map, List.filterMap_filter]
  refine List.filterMap_congr fun u _ => ?_
  by_cases hf : (u.2.2.field? c).isSome
  · simp [hf]
  · have hnone : u.2.2.scaleRequest? c = none := by
      rw [← Option.not_isSome_iff_eq_none, UnitView.scaleRequest?_isSome]
      exact fun h => hf h.2
    simp [hnone]

theorem requestsFor_eq_asks (t : ViewTree) (o : ViewId) (c : Channel) :
    t.requestsFor o c = t.asks c o t.preorder := by
  unfold requestsFor units asks
  rw [List.filterMap_filterMap]
  refine List.filterMap_congr fun v _ => ?_
  unfold ViewNode.scaleRequest?
  cases v.2.content.unit? <;> simp

theorem asks_flatMap (bs : List Branch) :
    t.asks c o (bs.flatMap Branch.flatten) = bs.flatMap fun b => t.asks c o b.flatten := by
  unfold asks
  rw [List.filterMap_flatMap]

theorem asks_eq_nil {vs : List (ViewId × ViewNode)}
    (h : ∀ u n, (u, n) ∈ vs → t.scaleOwner c u ≠ o) : t.asks c o vs = [] := by
  unfold asks
  rw [List.filterMap_eq_nil_iff]
  intro v hv
  rw [if_neg (h v.1 v.2 hv)]

/-- The scale, if any, that requests become at a view. -/
def settleAt (t : ViewTree) (o : ViewId) (c : Channel) (rs : List ScaleRequest) : List Scale :=
  (combine rs).toList.map fun r => r.settle o (((t.get? o).map ViewNode.name).getD "") c

@[simp] theorem settleAt_nil : t.settleAt o c [] = [] := rfl

/-- If at most one of several groups has requests, it does not matter whether they
are settled group by group. -/
theorem flatMap_settleAt {β : Type} (f : β → List ScaleRequest) (bs : List β)
    (h : bs.Pairwise fun a b => f a = [] ∨ f b = []) :
    (bs.flatMap fun b => t.settleAt o c (f b)) = t.settleAt o c (bs.flatMap f) := by
  induction bs with
  | nil => rfl
  | cons b bs ih =>
    rw [List.pairwise_cons] at h
    rw [List.flatMap_cons, List.flatMap_cons, ih h.2]
    by_cases hb : f b = []
    · rw [hb, settleAt_nil, List.nil_append, List.nil_append]
    · have hrest : bs.flatMap f = [] := by
        rw [List.flatMap_eq_nil_iff]
        exact fun a ha => (h.1 a ha).resolve_left hb
      rw [hrest, settleAt_nil, List.append_nil, List.append_nil]

end ViewTree

/-! ## What an inner view makes of its children -/

namespace ScaleHarvest
variable {view : CompositeView} {child : ViewId} {childName : String}

theorem absorb_settled (es : List (Channel × ScaleRequest)) (h : ScaleHarvest) :
    (es.foldl (absorb view child childName) h).settled =
      h.settled ++ (es.filter fun e => view.mode e.1 = .independent).map fun e =>
        e.2.settle child childName e.1 := by
  induction es generalizing h with
  | nil => simp
  | cons e es ih =>
    rw [List.foldl_cons, ih]
    cases hm : view.mode e.1 <;> simp [absorb, hm]

theorem absorb_requests (es : List (Channel × ScaleRequest)) (hd : (es.map Prod.fst).Nodup)
    (h : ScaleHarvest) (c : Channel) :
    (es.foldl (absorb view child childName) h).requests.get? c =
      match view.mode c with
      | .shared => Option.merge merge (h.requests.get? c)
          ((es.find? fun e => e.1 = c).map Prod.snd)
      | .independent => h.requests.get? c := by
  induction es generalizing h with
  | nil => cases view.mode c <;> simp
  | cons e es ih =>
    rw [List.map_cons, List.nodup_cons] at hd
    rw [List.foldl_cons, ih hd.2]
    by_cases hc : e.1 = c
    · subst hc
      have hnone : es.find? (fun e' => e'.1 = e.1) = none := by
        rw [List.find?_eq_none]
        intro e' he' hk
        exact hd.1 (List.mem_map.mpr ⟨e', he', of_decide_eq_true hk⟩)
      cases hm : view.mode e.1 with
      | independent => simp [absorb, hm]
      | shared =>
        cases hr : h.requests.get? e.1 <;> simp [absorb, hm, hr, hnone, Table.get?_insert]
    · have hkeep : (absorb view child childName h e).requests.get? c = h.requests.get? c := by
        cases hm : view.mode e.1 <;> simp [absorb, hm, Table.get?_insert, Ne.symm hc]
      rw [hkeep, List.find?_cons_of_neg (by simpa using hc)]

theorem take_requests (h offer : ScaleHarvest) (c : Channel) :
    (h.take view child childName offer).requests.get? c =
      match view.mode c with
      | .shared => Option.merge merge (h.requests.get? c) (offer.requests.get? c)
      | .independent => h.requests.get? c :=
  absorb_requests _ offer.requests.distinct _ c

/-- The settled scales of a channel at a view. -/
def settledAt (h : ScaleHarvest) (o : ViewId) (c : Channel) : List Scale :=
  h.settled.filter fun s => s.owner = o ∧ s.channel = c

/-- Of the requests that a view settles, those of a channel: one at most. -/
theorem filter_settle (requests : Table Channel ScaleRequest) (p : Channel → Bool) (v o : ViewId)
    (name : String) (c : Channel) :
    ((requests.entries.filter fun e => p e.1).map fun e => e.2.settle v name e.1).filter
        (fun s => s.owner = o ∧ s.channel = c) =
      if v = o ∧ p c then (requests.get? c).toList.map fun r => r.settle v name c else [] := by
  rw [List.filter_map, List.filter_filter]
  by_cases hc : v = o ∧ p c
  · have hkeys : requests.entries.filter (fun e =>
          ((fun s : Scale => decide (s.owner = o ∧ s.channel = c)) ∘
            fun e : Channel × ScaleRequest => e.2.settle v name e.1) e && p e.1) =
        requests.entries.filter fun e => e.1 = c := by
      refine List.filter_congr fun e _ => ?_
      by_cases he : e.1 = c
      · simp [settle, he, hc.1, hc.2]
      · simp [settle, he]
    rw [if_pos hc, hkeys, Table.filter_entries_eq, List.map_map]
    rfl
  · rw [if_neg hc, List.map_eq_nil_iff, List.filter_eq_nil_iff]
    intro e _ he
    obtain ⟨hkey, hp⟩ := Bool.and_eq_true_iff.mp he
    obtain ⟨ho, rfl⟩ : v = o ∧ e.1 = c := of_decide_eq_true hkey
    exact hc ⟨ho, hp⟩

theorem take_settledAt (h offer : ScaleHarvest) (o : ViewId) (c : Channel) :
    (h.take view child childName offer).settledAt o c =
      h.settledAt o c ++ (offer.settledAt o c ++
        if child = o ∧ view.mode c = .independent then
          (offer.requests.get? c).toList.map fun r => r.settle child childName c
        else []) := by
  unfold settledAt take
  rw [absorb_settled, List.filter_append, List.filter_append, List.append_assoc,
    filter_settle _ fun c => decide (view.mode c = .independent)]
  simp only [decide_eq_true_eq]

/-- Open requests of the children of a view that lets them share the channel. -/
theorem ofChildren_requests_shared {c : Channel} (hm : view.mode c = .shared)
    (f : Branch → List ScaleRequest) (bs : List Branch)
    (hf : ∀ b ∈ bs, (ofBranch b).requests.get? c = combine (f b)) (h : ScaleHarvest)
    (rs : List ScaleRequest) (hr : h.requests.get? c = combine rs) :
    (ofChildren view h bs).requests.get? c = combine (rs ++ bs.flatMap f) := by
  induction bs generalizing h rs with
  | nil => rw [ofChildren, hr, List.flatMap_nil, List.append_nil]
  | cons b bs ih =>
    rw [ofChildren, ih (fun b' hb' => hf b' (List.mem_cons_of_mem _ hb')) _ (rs ++ f b),
      List.flatMap_cons, List.append_assoc]
    rw [take_requests, hm, combine_append, hr, hf b List.mem_cons_self]

theorem ofChildren_requests_independent {c : Channel} (hm : view.mode c = .independent)
    (bs : List Branch) (h : ScaleHarvest) :
    (ofChildren view h bs).requests.get? c = h.requests.get? c := by
  induction bs generalizing h with
  | nil => rw [ofChildren]
  | cons b bs ih => rw [ofChildren, ih, take_requests, hm]

theorem ofChildren_settledAt (o : ViewId) (c : Channel) (bs : List Branch) (h : ScaleHarvest) :
    (ofChildren view h bs).settledAt o c =
      h.settledAt o c ++ bs.flatMap fun b =>
        (ofBranch b).settledAt o c ++
          if b.id = o ∧ view.mode c = .independent then
            ((ofBranch b).requests.get? c).toList.map fun r => r.settle b.id b.node.name c
          else [] := by
  induction bs generalizing h with
  | nil => rw [ofChildren, List.flatMap_nil, List.append_nil]
  | cons b bs ih =>
    rw [ofChildren, ih, take_settledAt, List.flatMap_cons, List.append_assoc]

end ScaleHarvest

/-! ## The invariant of a branch -/

namespace ViewTree
open ScaleHarvest
variable {t : ViewTree} {c : Channel} {o : ViewId}

theorem asks_mk_composite {v : ViewId} {n : ViewNode} {k : CompositeView} {bs : List Branch}
    (hk : n.content = .composite k) :
    t.asks c o (Branch.mk v n bs).flatten = bs.flatMap fun b => t.asks c o b.flatten := by
  have hnone : n.scaleRequest? c = none := by simp [ViewNode.scaleRequest?, hk, ViewContent.unit?]
  rw [Branch.flatten_mk, ← asks_flatMap]
  unfold asks
  rw [List.filterMap_cons]
  simp [hnone]

/-- A unit view stands alone in its branch. -/
theorem Spans.unit_alone (hl : t.UnitsAreLeaves) {v : ViewId} {n : ViewNode} {u : UnitView}
    {bs : List Branch} (h : t.Spans (.mk v n bs)) (hu : n.content = .unit u) : bs = [] := by
  rw [List.eq_nil_iff_forall_not_mem]
  intro b hb
  obtain ⟨_, hgb, hpb⟩ := h.child hb
  obtain ⟨m, k, hm, hk⟩ := hl hgb hpb
  cases h with
  | mk hv _ _ =>
    obtain rfl := Option.some.inj (hv.symm.trans hm)
    rw [hu] at hk
    cases hk

section Children
variable {v : ViewId} {n : ViewNode} {bs : List Branch} {b : Branch}

/-- Views of a child's branch come after the view itself. -/
theorem Spans.lt_of_mem_child (hw : t.WellFormed) (h : t.Spans (.mk v n bs)) (hb : b ∈ bs)
    {u : ViewId} {m : ViewNode} (hu : (u, m) ∈ b.flatten) : v < u := by
  obtain ⟨hs, hgb, hpb⟩ := h.child hb
  exact Nat.lt_of_lt_of_le (hw.parent_lt hgb hpb) ((hs.of_mem hu).2.le hw)

/-- An owner that views of a child's branch have, and that is not the owner for the
parent, is in the branch. -/
theorem Spans.owner_mem_child (hw : t.WellFormed) (hl : t.UnitsAreLeaves)
    (h : t.Spans (.mk v n bs)) (hb : b ∈ bs) (ho : o ≠ t.scaleOwner c v)
    (hne : t.asks c o b.flatten ≠ []) : ∃ m, (o, m) ∈ b.flatten := by
  obtain ⟨hs, hgb, hpb⟩ := h.child hb
  -- some view of the branch has the owner `o`
  obtain ⟨u, m, hu, rfl⟩ : ∃ u m, (u, m) ∈ b.flatten ∧ t.scaleOwner c u = o := by
    by_contra hno
    exact hne (asks_eq_nil fun u m hu he => hno ⟨u, m, hu, he⟩)
  rcases scaleOwner_mem (c := c) hw hl hs hu with he | hm
  · obtain ⟨n', k, hv, hk⟩ := hl hgb hpb
    cases hmode : k.mode c with
    | shared => exact absurd (he.trans (scaleOwner_child_shared hw hgb hpb hv hk hmode)) ho
    | independent =>
      rw [he, scaleOwner_child_independent hgb hpb hv hk hmode]
      exact ⟨b.node, hs.mem_of_within hw hgb (.refl _)⟩
  · exact hm

/-- Where the children are independent, none of their views has the owner for the
parent. -/
theorem Spans.asks_owner_independent (hw : t.WellFormed) (hl : t.UnitsAreLeaves)
    {k : CompositeView} (h : t.Spans (.mk v n bs)) (hk : n.content = .composite k)
    (hm : k.mode c = .independent) (hb : b ∈ bs) :
    t.asks c (t.scaleOwner c v) b.flatten = [] := by
  obtain ⟨hs, hgb, hpb⟩ := h.child hb
  have hv : t.get? v = some n := by cases h with | mk hv _ _ => exact hv
  refine asks_eq_nil fun u m hu he => ?_
  have hle := scaleOwner_le hw c v
  rcases scaleOwner_mem (c := c) hw hl hs hu with h' | ⟨m', h'⟩
  · rw [scaleOwner_child_independent hgb hpb hv hk hm] at h'
    rw [← he, h'] at hle
    exact absurd hle (Nat.not_le_of_lt (hw.parent_lt hgb hpb))
  · rw [← he] at hle
    exact absurd hle (Nat.not_le_of_lt (h.lt_of_mem_child hw hb h'))

/-- At most one child's branch has requests of an owner that is not the owner for
the parent. -/
theorem Spans.asks_pairwise (hw : t.WellFormed) (hl : t.UnitsAreLeaves)
    (h : t.Spans (.mk v n bs)) (ho : o ≠ t.scaleOwner c v) :
    bs.Pairwise fun a b => t.asks c o a.flatten = [] ∨ t.asks c o b.flatten = [] := by
  refine (h.disjoint hw).imp_of_mem ?_
  intro a b ha hb hdisj
  by_contra hno
  rw [not_or] at hno
  obtain ⟨m, hm⟩ := h.owner_mem_child hw hl ha ho hno.1
  obtain ⟨m', hm'⟩ := h.owner_mem_child hw hl hb ho hno.2
  exact hdisj o m m' hm hm'

end Children

/-- Open at the top of a branch are the requests whose owner is that of the top. -/
theorem requests_ofBranch (hw : t.WellFormed) (hl : t.UnitsAreLeaves) {b : Branch}
    (h : t.Spans b) (c : Channel) :
    (ofBranch b).requests.get? c = combine (t.asks c (t.scaleOwner c b.id) b.flatten) := by
  induction h with
  | @mk v n bs hv hkids hall ih =>
    have hs : t.Spans (.mk v n bs) := .mk hv hkids hall
    change _ = combine (t.asks c (t.scaleOwner c v) _)
    rw [ofBranch]
    cases hcontent : n.content with
    | unit u =>
      obtain rfl := hs.unit_alone hl hcontent
      simp only [Branch.flatten_mk, List.flatMap_nil, asks, List.filterMap_cons, if_true,
        List.filterMap_nil, UnitView.get?_scaleRequests, ViewNode.scaleRequest?, hcontent,
        ViewContent.unit?, Option.bind_some]
      cases u.scaleRequest? c <;> rfl
    | composite k =>
      rw [asks_mk_composite hcontent]
      simp only
      cases hm : k.mode c with
      | shared =>
        rw [ofChildren_requests_shared hm (fun b => t.asks c (t.scaleOwner c v) b.flatten) bs
          (fun b hb => ?_) ⟨[], ∅⟩ [] rfl]
        · rfl
        · obtain ⟨_, hgb, hpb⟩ := hs.child hb
          rw [ih b hb, scaleOwner_child_shared hw hgb hpb hv hcontent hm]
      | independent =>
        have hnil : (bs.flatMap fun b => t.asks c (t.scaleOwner c v) b.flatten) = [] := by
          rw [List.flatMap_eq_nil_iff]
          exact fun b hb => hs.asks_owner_independent hw hl hcontent hm hb
        rw [ofChildren_requests_independent hm, hnil]
        rfl

/-- Settled in a branch are the requests whose owner is not that of the top. -/
theorem settled_ofBranch (hw : t.WellFormed) (hl : t.UnitsAreLeaves) {b : Branch}
    (h : t.Spans b) (o : ViewId) (c : Channel) :
    (ofBranch b).settledAt o c =
      if o = t.scaleOwner c b.id then [] else t.settleAt o c (t.asks c o b.flatten) := by
  induction h with
  | @mk v n bs hv hkids hall ih =>
    have hs : t.Spans (.mk v n bs) := .mk hv hkids hall
    change _ = if o = t.scaleOwner c v then _ else _
    rw [ofBranch]
    cases hcontent : n.content with
    | unit u =>
      obtain rfl := hs.unit_alone hl hcontent
      by_cases ho : o = t.scaleOwner c v
      · rw [if_pos ho]
        rfl
      · rw [if_neg ho, asks_eq_nil]
        · rfl
        · intro u m hu he
          rw [Branch.flatten_mk, List.flatMap_nil, List.mem_singleton] at hu
          obtain ⟨rfl, _⟩ := Prod.mk.inj hu
          exact ho he.symm
    | composite k =>
      simp only
      rw [ofChildren_settledAt, asks_mk_composite hcontent]
      -- what a child leaves settled, its own open requests included where they stop
      have hchild : ∀ b ∈ bs, ((ofBranch b).settledAt o c ++
            if b.id = o ∧ k.mode c = .independent then
              ((ofBranch b).requests.get? c).toList.map fun r => r.settle b.id b.node.name c
            else []) =
          if k.mode c = .shared ∧ o = t.scaleOwner c v then []
          else t.settleAt o c (t.asks c o b.flatten) := by
        intro b hb
        obtain ⟨hsb, hgb, hpb⟩ := hs.child hb
        rw [ih b hb, requests_ofBranch hw hl hsb]
        cases hm : k.mode c with
        | shared =>
          rw [scaleOwner_child_shared hw hgb hpb hv hcontent hm]
          simp
        | independent =>
          rw [scaleOwner_child_independent hgb hpb hv hcontent hm]
          by_cases ho : b.id = o
          · subst ho
            simp [settleAt, hgb]
          · simp [ho, Ne.symm ho]
      rw [List.flatMap_congr hchild]
      by_cases ho : o = t.scaleOwner c v
      · rw [if_pos ho]
        cases hm : k.mode c with
        | shared => simp [ho, settledAt]
        | independent =>
          subst ho
          refine List.append_eq_nil_iff.mpr ⟨rfl, List.flatMap_eq_nil_iff.mpr fun b hb => ?_⟩
          rw [if_neg (by simp), hs.asks_owner_independent hw hl hcontent hm hb, settleAt_nil]
      · rw [if_neg ho]
        simp only [ho, and_false, if_false]
        rw [flatMap_settleAt _ _ (hs.asks_pairwise hw hl ho)]
        rfl

end ViewTree

/-! ## The table -/

namespace ScaleTable
variable {t : ViewTree}

theorem get?_foldl_add (ss : List Scale) (o : ViewId) (c : Channel) :
    (ss.foldl add empty).get? o c = (ss.filter fun s => s.owner = o ∧ s.channel = c).getLast? := by
  have hfold : ∀ T : ScaleTable, (ss.foldl add T).scales =
      (ss.map fun s => ((s.owner, s.channel), s)).foldl (fun T e => T.insert e.1 e.2) T.scales := by
    induction ss with
    | nil => exact fun _ => rfl
    | cons s ss ih => exact fun T => ih (T.add s)
  rw [get?, hfold, Table.get?_foldl_insert, List.filter_map, List.getLast?_map, Option.map_map]
  simp only [Function.comp_def, Prod.mk.injEq, Option.map_id']
  exact Option.or_none

/-- The scale of a channel at a view is all requests that the view owns the channel
for, merged in the order of the walk. -/
theorem get?_ofTree (hw : t.WellFormed) (hl : t.UnitsAreLeaves) (o : ViewId) (c : Channel) :
    (ofTree t).get? o c = (t.settleAt o c (t.requestsFor o c)).getLast? := by
  rw [ViewTree.requestsFor_eq_asks, ofTree, ViewTree.preorder]
  cases hb : t.trunk? with
  | none => rfl
  | some b =>
    obtain ⟨hs, hroot⟩ := ViewTree.trunk_spans hw hb
    have hget : t.get? b.id = some b.node := by cases hs with | mk hv _ _ => exact hv
    have hrest := ScaleHarvest.filter_settle (ScaleHarvest.ofBranch b).requests (fun _ => true)
      b.id o b.node.name c
    have hsettled := ViewTree.settled_ofBranch hw hl hs o c
    rw [ScaleHarvest.settledAt, hroot, ViewTree.scaleOwner_root hw] at hsettled
    rw [List.filter_true, ViewTree.requests_ofBranch hw hl hs, hroot,
      ViewTree.scaleOwner_root hw] at hrest
    simp only [hroot]
    rw [get?_foldl_add, List.filter_append, hsettled, hrest]
    rw [hroot] at hget
    by_cases ho : o = ViewTree.root
    · simp [ho, ViewTree.settleAt, hget]
    · simp [ho, Ne.symm ho]

/-- There is a scale of a channel at the views that own it for some unit view. -/
theorem get?_ofTree_isSome (hw : t.WellFormed) (hl : t.UnitsAreLeaves) (o : ViewId) (c : Channel) :
    ((ofTree t).get? o c).isSome ↔
      c.hasScale ∧ ∃ v u, t.unit? v = some u ∧ (u.field? c).isSome ∧ t.scaleOwner c v = o := by
  have hsome : ((ofTree t).get? o c).isSome ↔ t.requestsFor o c ≠ [] := by
    rw [get?_ofTree hw hl, ViewTree.settleAt]
    cases hr : t.requestsFor o c <;> simp [combine]
  rw [hsome]
  constructor
  · intro hne
    obtain ⟨r, hr⟩ := List.exists_mem_of_ne_nil _ hne
    obtain ⟨⟨v, name, u⟩, hu, hr⟩ := List.mem_filterMap.mp hr
    split at hr
    · rename_i ho
      have hask := UnitView.scaleRequest?_isSome.mp (Option.isSome_of_eq_some hr)
      exact ⟨hask.1, v, u, (ViewTree.exists_mem_units hw).mp ⟨name, hu⟩, hask.2, ho⟩
    · cases hr
  · rintro ⟨hc, v, u, hu, hf, ho⟩
    obtain ⟨name, hmem⟩ := (ViewTree.exists_mem_units hw).mpr hu
    obtain ⟨r, hr⟩ := Option.isSome_iff_exists.mp (UnitView.scaleRequest?_isSome.mpr ⟨hc, hf⟩)
    exact List.ne_nil_of_mem (List.mem_filterMap.mpr ⟨_, hmem, by rw [if_pos ho]; exact hr⟩)

/-- Going up from a view, the first scale of a channel is that of the owner. -/
theorem nearest?_climb (hw : t.WellFormed) (hl : t.UnitsAreLeaves) {c : Channel} (steps : Nat)
    {v : ViewId} (hv : v < steps) (hs : ((ofTree t).get? (t.scaleOwner c v) c).isSome) :
    (ofTree t).nearest? (t.climb steps v) c = (ofTree t).get? (t.scaleOwner c v) c := by
  induction steps generalizing v with
  | zero => exact absurd hv (Nat.not_lt_zero v)
  | succ steps ih =>
    cases hp : t.sharingParent? c v with
    | none =>
      rw [ViewTree.scaleOwner_of_none hp] at hs ⊢
      obtain ⟨s, hs⟩ := Option.isSome_iff_exists.mp hs
      rw [ViewTree.climb]
      cases (t.get? v).bind ViewNode.parent <;> simp [nearest?, hs]
    | some p =>
      obtain ⟨hlt, he⟩ := ViewTree.scaleOwner_of_some hw hp
      have hparent : (t.get? v).bind ViewNode.parent = some p :=
        (Option.filter_eq_some_iff.mp hp).1
      -- a view that shares the channel with its siblings has no scale of its own
      have hnone : (ofTree t).get? v c = none := by
        rw [← Option.not_isSome_iff_eq_none, get?_ofTree_isSome hw hl]
        rintro ⟨_, u, _, _, _, ho⟩
        exact ViewTree.scaleOwner_ne_of_shares hw hp u ho
      rw [he] at hs ⊢
      rw [← ih (Nat.lt_of_lt_of_le hlt (Nat.le_of_lt_succ hv)) hs]
      simp [ViewTree.climb, hparent, nearest?, hnone]

/-- A unit view that has a field on a channel finds the scale of the owner. -/
theorem lookup_of_field (hw : t.WellFormed) (hl : t.UnitsAreLeaves) {v : ViewId} {u : UnitView}
    {c : Channel} (hu : t.unit? v = some u) (hc : c.hasScale) (hf : (u.field? c).isSome) :
    ∃ s, (ofTree t).get? (t.scaleOwner c v) c = some s ∧
      (ofTree t).lookup t v c = .ok (some s) := by
  have hsome := (get?_ofTree_isSome hw hl (t.scaleOwner c v) c).mpr ⟨hc, v, u, hu, hf, rfl⟩
  obtain ⟨s, hs⟩ := Option.isSome_iff_exists.mp hsome
  obtain ⟨n, hn, _⟩ := Option.bind_eq_some_iff.mp hu
  refine ⟨s, hs, ?_⟩
  have hnear := nearest?_climb hw hl t.size (ViewTree.lt_size_of_get? hn) hsome
  rw [hs] at hnear
  simp [lookup, ViewTree.ancestors, ViewTree.node, hn, Except.map, hnear]

/-- What a scale is made of, said by the unit views that it is owned for. -/
theorem made_of_units (hw : t.WellFormed) (hl : t.UnitsAreLeaves) {o : ViewId} {c : Channel}
    {s : Scale} (hs : (ofTree t).get? o c = some s) :
    s.owner = o ∧ s.channel = c ∧
      s.fields = ((t.unitsFor o c).filterMap fun u => u.field? c).eraseDups ∧
      (∃ u d, (t.unitsFor o c).head? = some u ∧ u.encoding.get? c = some d ∧
        s.type = d.scaleType.getD (.default c d.type u.mark d.binned)) ∧
      s.domain = (((t.unitsFor o c).filterMap fun u =>
        (u.encoding.get? c).map ChannelDef.domain).find? fun d => d ≠ .data).getD .data := by
  have hc : c.hasScale = true :=
    ((get?_ofTree_isSome hw hl o c).mp (Option.isSome_of_eq_some hs)).1
  rw [get?_ofTree hw hl, ViewTree.requestsFor_eq_unitsFor] at hs
  obtain ⟨r, hr, rfl⟩ := List.mem_map.mp (List.mem_of_getLast? hs)
  exact ⟨rfl, rfl, combine_units hc (fun u hu => ((ViewTree.mem_unitsFor hw).mp hu).1)
    (Option.mem_toList.mp hr)⟩

/-- **Scales are where their owners are.**  There is one scale for each pair of an
owner and a channel; a unit view that has a field on the channel finds that of the
owner, and no other; and the scale is made from the unit views it is owned for, in
the order of the walk: their fields without repetitions, the type that the first
names or else is given by default, and the first declared domain that does not come
from the data. -/
theorem ofTree_placed {spec : ViewSpec} {tree : ViewTree} (h : ViewTree.ofSpec spec = .ok tree) :
    (ofTree tree).scales.keys.Nodup ∧
    (∀ o c, (o, c) ∈ (ofTree tree).scales.keys ↔ c.hasScale ∧
      ∃ v u, tree.unit? v = some u ∧ (u.field? c).isSome ∧ tree.scaleOwner c v = o) ∧
    (∀ v u c, tree.unit? v = some u → c.hasScale → (u.field? c).isSome →
      ∃ s, (ofTree tree).get? (tree.scaleOwner c v) c = some s ∧
        (ofTree tree).lookup tree v c = .ok (some s)) ∧
    (∀ o c s, (ofTree tree).get? o c = some s →
      s.owner = o ∧ s.channel = c ∧
      s.fields = ((tree.unitsFor o c).filterMap fun u => u.field? c).eraseDups ∧
      (∃ u d, (tree.unitsFor o c).head? = some u ∧ u.encoding.get? c = some d ∧
        s.type = d.scaleType.getD (.default c d.type u.mark d.binned)) ∧
      s.domain = (((tree.unitsFor o c).filterMap fun u =>
        (u.encoding.get? c).map ChannelDef.domain).find? fun d => d ≠ .data).getD .data) := by
  obtain ⟨hw, hl⟩ := ViewTree.ofSpec_wellFormed h
  refine ⟨(ofTree tree).scales.distinct, fun o c => ?_, fun v u c hu hc hf => ?_,
    fun o c s hs => ?_⟩
  · rw [← get?_ofTree_isSome hw hl, Table.mem_keys_iff, Option.isSome_iff_exists]
    rfl
  · exact lookup_of_field hw hl hu hc hf
  · exact made_of_units hw hl hs

end ScaleTable

/-- A channel that shows a field of numbers. -/
def ChannelSpec.numeric (f : String) : ChannelSpec :=
  .single ⟨some (.named ⟨f⟩), .quantitative, false, none, .data⟩

/-- A field for which a template is repeated, as numbers. -/
def ChannelSpec.numericAlong (axis : Axis) : ChannelSpec :=
  .single ⟨some (.repeated axis), .quantitative, false, none, .data⟩

/-- A view of points. -/
def ViewSpec.points (encoding : List (Channel × ChannelSpec))
    (selections : List (String × SelectionDef)) : ViewSpec :=
  .unit { (default : ViewHead) with
    encoding := Table.ofList encoding
    selections := Table.ofList selections } .point

/-- Two layers beside a third view; all three share `x`, only the layers share `y`.
The first view names the type of its `x` scale and shows categories on `y`, the later
two declare a domain for `x`. -/
def ViewSpec.sharedAxis : ViewSpec :=
  .concatenated { (default : ViewHead) with resolve := Table.ofList [(.x, .shared)] }
    [.layered default [
        points [(.x, .single ⟨some (.named ⟨"A"⟩), .quantitative, false, some .log, .data⟩),
          (.y, .single ⟨some (.named ⟨"B"⟩), .nominal, false, none, .data⟩)] [],
        points [(.x, .single ⟨some (.named ⟨"C"⟩), .quantitative, false, none,
            .literal [.string "low", .string "high"]⟩),
          (.y, .numeric "D")] []],
      points [(.x, .single ⟨some (.named ⟨"A"⟩), .quantitative, false, none, .literal [.null]⟩),
        (.y, .numeric "E")] []]

/-- The third view finds the scale of the root, the second that of its layering. -/
theorem ScaleTable.ofTree_placed_sharedAxis :
    ∃ tree, ViewTree.ofSpec .sharedAxis = .ok tree ∧
      (∃ s, (ofTree tree).get? 0 .x = some s ∧ (ofTree tree).lookup tree 4 .x = .ok (some s) ∧
        s.fields = [⟨"A"⟩, ⟨"C"⟩] ∧ s.type = .log ∧
        s.domain = .literal [.string "low", .string "high"]) ∧
      ∃ s, (ofTree tree).get? 1 .y = some s ∧ (ofTree tree).lookup tree 3 .y = .ok (some s) ∧
        s.fields = [⟨"B"⟩, ⟨"D"⟩] ∧ s.type = .point ∧ s.domain = .data := by
  obtain ⟨tree, htree⟩ : ∃ tree, ViewTree.ofSpec .sharedAxis = .ok tree := ⟨_, rfl⟩
  obtain ⟨-, -, hlookup, hmade⟩ := ofTree_placed htree
  have hscale : ∀ v o c fs type domain, c.hasScale →
      ((tree.unit? v).bind fun u => u.field? c).isSome → tree.scaleOwner c v = o →
      ((tree.unitsFor o c).filterMap fun u => u.field? c).eraseDups = fs →
      ((tree.unitsFor o c).head?.bind fun u => (u.encoding.get? c).map fun d =>
        d.scaleType.getD (.default c d.type u.mark d.binned)) = some type →
      (((tree.unitsFor o c).filterMap fun u => (u.encoding.get? c).map ChannelDef.domain).find?
        fun d => d ≠ .data).getD .data = domain →
      ∃ s, (ofTree tree).get? o c = some s ∧ (ofTree tree).lookup tree v c = .ok (some s) ∧
        s.fields = fs ∧ s.type = type ∧ s.domain = domain := by
    rintro v o c fs type domain hc hf rfl rfl htype rfl
    obtain ⟨f, hf⟩ := Option.isSome_iff_exists.mp hf
    obtain ⟨u, hu, hf⟩ := Option.bind_eq_some_iff.mp hf
    obtain ⟨s, hget, hfound⟩ := hlookup v u c hu hc (Option.isSome_of_eq_some hf)
    obtain ⟨-, -, hfields, ⟨w, d, hw, hd, hs⟩, hdomain⟩ := hmade _ c s hget
    refine ⟨s, hget, hfound, hfields, ?_, hdomain⟩
    rw [hw, Option.bind_some, hd, Option.map_some] at htype
    exact hs.trans (Option.some.inj htype)
  refine ⟨tree, htree, hscale 4 0 .x _ _ _ rfl ?_ ?_ ?_ ?_ ?_,
    hscale 3 1 .y _ _ _ rfl ?_ ?_ ?_ ?_ ?_⟩
  all_goals
    cases htree
    decide +kernel

end BrushLink
