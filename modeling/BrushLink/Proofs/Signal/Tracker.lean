import BrushLink.Proofs.Selection.Lookup
import BrushLink.Proofs.Signal.Extension
import BrushLink.Proofs.Signal.Keys

/-! # The signal that tracks the pointer

The outermost scope starts with the signal that tracks the view under the pointer, and
later signals go to the end, so the first signal keeps its name (`head?_names_run`).  It
need not stay the same signal: the composite of a selection takes the place of whatever
has its name, and a selection may be called like the tracker.  So the tracker leads exactly
if no field is admitted to the composite of a selection of that name
(`head?_foldl_merge`).
-/
namespace BrushLink

namespace TopLevel
variable {t : TopLevel} {k : Component} {r : Signal}

/-- A signal gives way to a composite of its own name only. -/
theorem mem_mergeComponent (hd : t.names.Nodup) (hr : r ∈ t.signals)
    (h : k.name = r.name → t.introduced k = []) : r ∈ (t.mergeComponent k).signals := by
  by_cases hi : t.introduced k = []
  · rwa [mergeComponent_of_nil hi]
  · refine (mem_signals_mergeComponent hd hi).mpr (Or.inr (Or.inl ⟨hr, fun he => ?_⟩))
    exact hi (h he.symm)

/-- A signal stays if no field is admitted to a composite of its name. -/
theorem mem_run {ks : List Component} (hd : t.names.Nodup)
    (hks : ∀ k ∈ ks, k.pushedFields.Nodup) (hr : r ∈ t.signals)
    (h : admitted r.name t ks = []) : r ∈ (ks.foldl mergeComponent t).signals := by
  induction ks generalizing t with
  | nil => exact hr
  | cons k ks ih =>
    rw [admitted, List.append_eq_nil_iff] at h
    obtain ⟨hfirst, hrest⟩ := h
    refine ih (names_nodup_mergeComponent hd (hks k List.mem_cons_self))
      (fun k' hk' => hks k' (List.mem_cons_of_mem k hk')) ?_ hrest
    refine mem_mergeComponent hd hr fun hname => ?_
    rwa [if_pos hname] at hfirst

/-- Where names differ, a signal with the name of the first one is the first one. -/
theorem head?_eq_some (hd : t.names.Nodup) (hr : r ∈ t.signals)
    (hname : t.names.head? = some r.name) : t.signals.head? = some r := by
  obtain ⟨signals, composites⟩ := t
  cases signals with
  | nil => cases hr
  | cons q qs =>
    rcases List.mem_cons.mp hr with rfl | hr
    · rfl
    · -- the name of the first one would stand twice
      have hq : q.name = r.name := Option.some.inj hname
      exact absurd (List.mem_map.mpr ⟨r, hr, hq.symm⟩) (List.nodup_cons.mp hd).1

theorem head?_names_run (ks : List Component) :
    (ks.foldl mergeComponent started).names.head? = some tracker.name := by
  obtain ⟨rest, hrest⟩ := (extends_run ks started).names
  rw [← hrest]
  rfl

/-- What leads the outermost scope, once there is a component. -/
theorem head?_foldl_merge {views : List (List Component)} (hne : views.flatten ≠ [])
    (hks : ∀ k ∈ views.flatten, k.pushedFields.Nodup) :
    (views.foldl merge empty).signals.head? =
      some (match compositeFields (views.flatten.filter Component.pushOuter) tracker.name with
        | [] => tracker
        | fs => Signal.composite tracker.name fs) := by
  have hsound := sound_foldl_merge hks
  have houter : ∀ k ∈ views.flatten.filter Component.pushOuter, k.pushedFields.Nodup :=
    fun k hk => hks k (List.mem_filter.mp hk).1
  have hname : (views.foldl merge empty).names.head? = some tracker.name := by
    rw [foldl_merge_eq hne]
    exact head?_names_run _
  split
  · rename_i hnone
    refine head?_eq_some hsound.names_nodup ?_ hname
    rw [foldl_merge_eq hne]
    refine mem_run sound_started.names_nodup houter List.mem_cons_self ?_
    rw [admitted_started houter, hnone]
  · rename_i hsome
    exact head?_eq_some hsound.names_nodup (hsound.composite_mem _ hsome) hname

end TopLevel

namespace Compilation
variable {spec : ViewSpec} {c : Compilation} {a : Artifact}

/-- There are components exactly if a unit view declares a selection. -/
theorem exists_declared_iff (hc : (ofSpec spec).result = .ok c) :
    (c.tree.units.map fun u => c.registry.componentsOf u.1).flatten ≠ [] ↔
      ∃ v view u, (v, view, u) ∈ c.tree.units ∧ u.selections.keys ≠ [] := by
  obtain ⟨htree, hparse⟩ := ofSpec_steps hc
  have hw := (ViewTree.ofSpec_wellFormed htree).1
  have hr := Registry.completed_of_parse hparse
  rw [Ne, List.flatten_eq_nil_iff]
  constructor
  · intro h
    by_contra hnone
    refine h fun ks hks => ?_
    obtain ⟨⟨v, view, u⟩, hu, rfl⟩ := List.mem_map.mp hks
    have hkeys := hr.names_componentsOf hw hu
    by_contra hne
    refine hnone ⟨v, view, u, hu, fun hnil => hne ?_⟩
    rw [hnil] at hkeys
    exact List.map_eq_nil_iff.mp hkeys
  · rintro ⟨v, view, u, hu, hkeys⟩ hall
    have hnil := hall _ (List.mem_map.mpr ⟨_, hu, rfl⟩)
    rw [← hr.names_componentsOf hw hu, hnil] at hkeys
    exact hkeys rfl

end Compilation

/-- **When the tracker leads.**  The outermost scope is empty if no unit view declares a
selection.  Otherwise the tracker is its first signal exactly if every selection that lives
there and is called like the tracker finds the names of all its data signals taken; if not,
the composite of that selection stands in the place of the tracker. -/
theorem tracker_leads_iff {spec : ViewSpec} {c : Compilation} {a : Artifact}
    (hc : (Compilation.ofSpec spec).result = .ok c) (ha : c.artifact.result = .ok a) :
    ((∀ v view u, (v, view, u) ∈ c.tree.units → u.selections.keys = []) → a.signals = []) ∧
    ((∃ v view u, (v, view, u) ∈ c.tree.units ∧ u.selections.keys ≠ []) →
      (a.signals.head? = some TopLevel.tracker ↔
        ∀ k ∈ c.outerComponents, k.name = TopLevel.tracker.name → ∀ f ∈ k.pushedFields,
          TopLevel.preempted k.name f [TopLevel.tracker.name] c.outerComponents = true) ∧
      (a.signals.head? ≠ some TopLevel.tracker →
        a.signals.head? = some (Signal.composite TopLevel.tracker.name
          (TopLevel.compositeFields c.outerComponents TopLevel.tracker.name)))) := by
  rw [(Compilation.artifact_ok ha).1, c.topLevel_eq]
  constructor
  · intro hnone
    rw [TopLevel.foldl_merge_of_nil]
    · rfl
    · by_contra hne
      obtain ⟨v, view, u, hu, hkeys⟩ := (Compilation.exists_declared_iff hc).mp hne
      exact hkeys (hnone v view u hu)
  · intro hsome
    have hhead := TopLevel.head?_foldl_merge ((Compilation.exists_declared_iff hc).mpr hsome)
      fun k hk => Compilation.pushedFields_nodup hc ((Compilation.mem_units_components hc).mp hk)
    have hadmitted : TopLevel.compositeFields c.outerComponents TopLevel.tracker.name = [] ↔
        ∀ k ∈ c.outerComponents, k.name = TopLevel.tracker.name → ∀ f ∈ k.pushedFields,
          TopLevel.preempted k.name f [TopLevel.tracker.name] c.outerComponents = true := by
      rw [List.eq_nil_iff_forall_not_mem]
      constructor
      · intro h k hk hname f hf
        by_contra hfree
        rw [Bool.not_eq_true, hname] at hfree
        exact h f (TopLevel.mem_compositeFields.mpr ⟨⟨k, hk, hname, hf⟩, hfree⟩)
      · intro h f hf
        obtain ⟨⟨k, hk, hname, hf⟩, hfree⟩ := TopLevel.mem_compositeFields.mp hf
        have htaken := h k hk hname f hf
        rw [hname, hfree] at htaken
        cases htaken
    rw [← hadmitted, hhead, ← List.flatMap_def, ← Compilation.outerComponents]
    split
    · rename_i hnil
      exact ⟨iff_of_true rfl hnil, fun h => absurd rfl h⟩
    · rename_i hne
      refine ⟨iff_of_false ?_ hne, fun _ => rfl⟩
      intro he
      cases Option.some.inj he

/-- A view that can be brushed by a selection called like the tracker, and panned. -/
def ViewSpec.brushCalledUnit : ViewSpec :=
  .concatenated default
    [points [(.x, .numeric "A")] [("unit", ⟨.interval, .none⟩), ("grid", .scaleBound [.x])]]

/-- The brush lives on its view, so that the tracker leads all the same. -/
theorem tracker_leads_iff_brushCalledUnit :
    ∃ c a, (Compilation.ofSpec .brushCalledUnit).result = .ok c ∧ c.artifact.result = .ok a ∧
      (∃ v view u, (v, view, u) ∈ c.tree.units ∧ u.selections.keys = ["unit", "grid"]) ∧
      a.signals.head? = some (.declared "unit" (some (.object [])) none
        [⟨.stream "mousemove", "isTuple(group()) ? group() : unit", false⟩]) ∧
      a.signal? "grid_A" ≠ none := by
  have hc : (Compilation.ofSpec .brushCalledUnit).result = .ok _ := rfl
  refine ⟨_, _, hc, rfl, ⟨_, _, _, List.mem_cons_self, rfl⟩, ?_, by decide +kernel⟩
  refine ((tracker_leads_iff hc rfl).2 ⟨_, _, _, List.mem_cons_self, ?_⟩).1.mpr ?_
  · decide
  · decide +kernel

/-- A view that is panned by a selection called like the tracker. -/
def ViewSpec.panCalledUnit : ViewSpec :=
  .concatenated default [points [(.x, .numeric "A")] [("unit", .scaleBound [.x])]]

/-- Nothing tracks the pointer: the composite of the selection stands where the tracker
stood. -/
theorem panCalledUnit_no_tracker :
    ∃ c a, (Compilation.ofSpec .panCalledUnit).result = .ok c ∧ c.artifact.result = .ok a ∧
      (∃ v view u, (v, view, u) ∈ c.tree.units ∧ u.selections.keys ≠ []) ∧
      a.signals.head? = some (Signal.composite "unit" [⟨"A"⟩]) ∧
      TopLevel.tracker ∉ a.signals :=
  ⟨_, _, rfl, rfl, ⟨_, _, _, List.mem_cons_self, by decide⟩, by decide +kernel, by decide +kernel⟩

end BrushLink
