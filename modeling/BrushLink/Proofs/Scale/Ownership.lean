import BrushLink.Proofs.View.WellFormed
import BrushLink.Scale.Table

/-! # Which view owns a scale

Said without any merging of requests: the scale that a view uses for a channel
belongs to the view that is reached by going to the parent as long as the parent
lets its children share the channel (`scaleOwner`).  Whether it does is read off
its own entry for the channel and its kind (`CompositeView.Shares`).  The owner is
found in the view's own branch unless it is that of the branch's top
(`scaleOwner_mem`), and a view whose parent lets it share the channel owns no scale
for it (`scaleOwner_ne_of_shares`).
-/
namespace BrushLink

/-- The children of an inner view share the scale of a channel: its entry for the
channel says so, or it has none and is a layering or a facet, or the channel is
neither of the positions. -/
def CompositeView.Shares (k : CompositeView) (c : Channel) : Prop :=
  k.resolve.get? c = some .shared ∨
    k.resolve.get? c = none ∧ (k.kind = .layer ∨ k.kind = .facet ∨ c ≠ .x ∧ c ≠ .y)

instance (k : CompositeView) (c : Channel) : Decidable (k.Shares c) :=
  inferInstanceAs (Decidable (_ ∨ _))

theorem CompositeView.shares_iff {k : CompositeView} {c : Channel} :
    k.Shares c ↔ k.mode c = .shared := by
  unfold Shares mode
  cases k.resolve.get? c with
  | some m => simp
  | none =>
    cases hk : k.kind with
    | layer | facet => simp [CompositeKind.defaultMode]
    | concat | repetition => cases c <;> simp [CompositeKind.defaultMode, Channel.isPositional]

namespace ViewTree
variable {t : ViewTree} {c : Channel}

/-- Whether a view is an inner view whose children share the scale of a channel. -/
def letsShare (t : ViewTree) (c : Channel) (v : ViewId) : Bool :=
  (t.get? v).any fun n => n.content.composite?.any fun k => k.Shares c

/-- The parent of a view, if it lets its children share the scale of a channel. -/
def sharingParent? (t : ViewTree) (c : Channel) (v : ViewId) : Option ViewId :=
  ((t.get? v).bind ViewNode.parent).filter (t.letsShare c)

/-- The view that owns the scale which a view uses for a channel.  A parent comes
before its children, so the walk ends. -/
def scaleOwner (t : ViewTree) (c : Channel) (v : ViewId) : ViewId :=
  match t.sharingParent? c v with
  | some p => if p < v then t.scaleOwner c p else v
  | none => v
  termination_by v

theorem scaleOwner_of_none {v : ViewId} (h : t.sharingParent? c v = none) :
    t.scaleOwner c v = v := by
  rw [scaleOwner, h]

theorem scaleOwner_of_some (hw : t.WellFormed) {v p : ViewId}
    (h : t.sharingParent? c v = some p) : p < v ∧ t.scaleOwner c v = t.scaleOwner c p := by
  obtain ⟨hp, _⟩ := Option.filter_eq_some_iff.mp h
  obtain ⟨n, hv, hn⟩ := Option.bind_eq_some_iff.mp hp
  have hlt := hw.parent_lt hv hn
  refine ⟨hlt, ?_⟩
  rw [scaleOwner, h]
  simp only [if_pos hlt]

/-- The owner comes no later than the view. -/
theorem scaleOwner_le (hw : t.WellFormed) (c : Channel) (v : ViewId) : t.scaleOwner c v ≤ v := by
  induction v using Nat.strongRecOn with
  | ind v ih =>
    cases h : t.sharingParent? c v with
    | none => exact Nat.le_of_eq (scaleOwner_of_none h)
    | some p =>
      obtain ⟨hlt, he⟩ := scaleOwner_of_some hw h
      rw [he]
      exact Nat.le_trans (ih p hlt) (Nat.le_of_lt hlt)

/-- The walk ends at a view whose parent does not let it share the channel. -/
theorem sharingParent?_scaleOwner (hw : t.WellFormed) (c : Channel) (v : ViewId) :
    t.sharingParent? c (t.scaleOwner c v) = none := by
  induction v using Nat.strongRecOn with
  | ind v ih =>
    cases h : t.sharingParent? c v with
    | none => rw [scaleOwner_of_none h, h]
    | some p =>
      obtain ⟨hlt, he⟩ := scaleOwner_of_some hw h
      rw [he]
      exact ih p hlt

theorem scaleOwner_ne_of_shares (hw : t.WellFormed) {v p : ViewId}
    (h : t.sharingParent? c v = some p) (u : ViewId) : t.scaleOwner c u ≠ v := by
  rintro rfl
  rw [sharingParent?_scaleOwner hw] at h
  cases h

/-! ## Owners along a branch -/

section Child
variable {v w : ViewId} {n m : ViewNode} {k : CompositeView}

theorem sharingParent?_child (hw : t.get? w = some m) (hp : m.parent = some v)
    (hv : t.get? v = some n) (hk : n.content = .composite k) :
    t.sharingParent? c w = if k.mode c = .shared then some v else none := by
  have hs : t.letsShare c v = decide (k.mode c = .shared) := by
    simp [letsShare, hv, hk, ViewContent.composite?, CompositeView.shares_iff]
  rw [sharingParent?, hw, Option.bind_some, hp, Option.filter_some, hs]
  by_cases h : k.mode c = .shared <;> simp [h]

theorem scaleOwner_child_shared (hwf : t.WellFormed) (hw : t.get? w = some m)
    (hp : m.parent = some v) (hv : t.get? v = some n) (hk : n.content = .composite k)
    (hm : k.mode c = .shared) : t.scaleOwner c w = t.scaleOwner c v := by
  refine (scaleOwner_of_some hwf ?_).2
  rw [sharingParent?_child hw hp hv hk, if_pos hm]

theorem scaleOwner_child_independent (hw : t.get? w = some m) (hp : m.parent = some v)
    (hv : t.get? v = some n) (hk : n.content = .composite k) (hm : k.mode c = .independent) :
    t.scaleOwner c w = w := by
  refine scaleOwner_of_none ?_
  rw [sharingParent?_child hw hp hv hk, if_neg (by rw [hm]; nofun)]

end Child

theorem scaleOwner_root (hw : t.WellFormed) (c : Channel) : t.scaleOwner c root = root :=
  Nat.le_zero.mp (scaleOwner_le hw c root)

/-- The owner for a view of a branch is in the branch, unless it is the one for the
top. -/
theorem scaleOwner_mem (hw : t.WellFormed) (hl : t.UnitsAreLeaves) {b : Branch} (h : t.Spans b)
    {u : ViewId} {n : ViewNode} (hu : (u, n) ∈ b.flatten) :
    t.scaleOwner c u = t.scaleOwner c b.id ∨ ∃ m, (t.scaleOwner c u, m) ∈ b.flatten := by
  induction h with
  | @mk v k bs hv hkids hall ih =>
    rw [Branch.flatten_mk] at hu ⊢
    rcases List.mem_cons.mp hu with hu | hu
    · obtain ⟨rfl, _⟩ := Prod.mk.inj hu
      exact Or.inl rfl
    · obtain ⟨b, hb, hu⟩ := List.mem_flatMap.mp hu
      obtain ⟨_, hgb, hpb⟩ := Spans.child (.mk hv hkids hall) hb
      obtain ⟨k', v', hv', hk'⟩ := hl hgb hpb
      rcases ih b hb hu with he | ⟨m, hm⟩
      · cases hmode : v'.mode c with
        | shared => exact Or.inl (he.trans (scaleOwner_child_shared hw hgb hpb hv' hk' hmode))
        | independent =>
          rw [scaleOwner_child_independent hgb hpb hv' hk' hmode] at he
          refine Or.inr ⟨b.node, List.mem_cons_of_mem _ (List.mem_flatMap.mpr ⟨b, hb, ?_⟩)⟩
          rw [he]
          obtain ⟨w, m, cs⟩ := b
          rw [Branch.flatten_mk]
          exact List.mem_cons_self
      · exact Or.inr ⟨m, List.mem_cons_of_mem _ (List.mem_flatMap.mpr ⟨b, hb, hm⟩)⟩

end ViewTree

end BrushLink
