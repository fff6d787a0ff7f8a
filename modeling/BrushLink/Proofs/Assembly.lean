import BrushLink.Proofs.Signal.Linked

/-! # The assembled artifact

The views of an artifact are those of the walk, one by one, each with the scales it
owns and the signals of its components (`Compilation.artifact_ok`,
`Compilation.signals_of_view`).  The outermost signals are one run over the
components that live there, in the order of the walk (`Compilation.sound_topLevel`).

Put together, the signals of an artifact refer only to signals that exist
(`Artifact.Closed`).
-/
namespace BrushLink

namespace Compilation
variable {spec : ViewSpec} {c : Compilation} {a : Artifact}

/-! ## The outermost scope -/

/-- The components that live in the outermost scope, in the order of the walk. -/
def outerComponents (c : Compilation) : List Component :=
  (c.tree.units.flatMap fun u => c.registry.componentsOf u.1).filter Component.pushOuter

theorem topLevel_eq (c : Compilation) :
    c.topLevel =
      (c.tree.units.map fun u => c.registry.componentsOf u.1).foldl TopLevel.merge .empty := by
  rw [topLevel, List.foldl_map]

theorem pushedFields_nodup (h : (ofSpec spec).result = .ok c) {k : Component}
    (hk : k ∈ c.registry.components) : k.pushedFields.Nodup :=
  (declaredIn h hk).fields_nodup.sublist (List.filter_sublist.map _)

/-- The components of the unit views are all components. -/
theorem mem_units_components (h : (ofSpec spec).result = .ok c) {k : Component} :
    k ∈ (c.tree.units.map fun u => c.registry.componentsOf u.1).flatten ↔
      k ∈ c.registry.components := by
  rw [← List.flatMap_def, List.mem_flatMap]
  constructor
  · rintro ⟨u, _, hk⟩
    exact (Registry.mem_componentsOf.mp hk).1
  · intro hk
    obtain ⟨view, u, hu, _⟩ := (declaredIn h hk).declared
    exact ⟨_, hu, Registry.mem_componentsOf.mpr ⟨hk, rfl⟩⟩

theorem mem_outerComponents (h : (ofSpec spec).result = .ok c) {k : Component} :
    k ∈ c.outerComponents ↔ k ∈ c.registry.components ∧ k.pushOuter = true := by
  rw [outerComponents, List.mem_filter, List.flatMap_def, mem_units_components h]

/-- What the outermost signals are. -/
theorem sound_topLevel (h : (ofSpec spec).result = .ok c) :
    c.topLevel.Sound (TopLevel.compositeFields c.outerComponents) := by
  rw [topLevel_eq, outerComponents, List.flatMap_def]
  exact TopLevel.sound_foldl_merge fun k hk =>
    pushedFields_nodup h ((mem_units_components h).mp hk)

/-- Each pushed field has a signal of its name there. -/
theorem pushed_mem_topLevel (h : (ofSpec spec).result = .ok c) {k : Component} {f : Field}
    (hk : k ∈ c.registry.components) (houter : k.pushOuter = true) (hf : f ∈ k.pushedFields) :
    dataSignalName k.name f ∈ c.topLevel.names := by
  rw [topLevel_eq]
  exact TopLevel.pushed_mem_foldl_merge ((mem_units_components h).mpr hk) houter hf

/-! ## Views -/

theorem artifact_ok (h : c.artifact.result = .ok a) :
    a.signals = c.topLevel.signals ∧
      List.Forall₂ (fun v cv => (c.compiledView v).result = .ok cv) c.tree.preorder a.views := by
  obtain ⟨views, hviews, h⟩ := Diagnosed.bind_result_ok.mp h
  cases Diagnosed.pure_result_ok.mp h
  exact ⟨rfl, Diagnosed.forEach_result_ok.mp hviews⟩

theorem compiledView_ok {v : ViewId × ViewNode} {cv : CompiledView}
    (h : (c.compiledView v).result = .ok cv) :
    (c.scalesOf v.1).result = .ok cv.scales ∧
      ((v.2.content.unit?.isSome ∧ c.signalsOf v.1 = .ok cv.signals) ∨
        (v.2.content.unit? = none ∧ cv.signals = [])) := by
  obtain ⟨scales, hscales, h⟩ := Diagnosed.bind_result_ok.mp h
  cases hcontent : v.2.content with
  | unit u =>
    rw [hcontent] at h
    obtain ⟨signals, hsignals, h⟩ := Diagnosed.bind_result_ok.mp h
    cases Diagnosed.pure_result_ok.mp h
    exact ⟨hscales, Or.inl ⟨rfl, CompileError.ofTree_eq_ok.mp hsignals⟩⟩
  | composite w =>
    rw [hcontent] at h
    obtain ⟨signals, hsignals, h⟩ := Diagnosed.bind_result_ok.mp h
    cases Diagnosed.pure_result_ok.mp h
    exact ⟨hscales, Or.inr ⟨rfl, (Diagnosed.pure_result_ok.mp hsignals).symm⟩⟩

/-- A view of the artifact has the signals of the components on the view of the walk
that it stands for. -/
theorem signals_of_view (h : (ofSpec spec).result = .ok c) (ha : c.artifact.result = .ok a)
    {v : ViewId × ViewNode} {cv : CompiledView} (hv : (v, cv) ∈ c.tree.preorder.zip a.views) :
    c.signalsOf v.1 = .ok cv.signals := by
  obtain ⟨hw, _⟩ := ViewTree.ofSpec_wellFormed (ofSpec_steps h).1
  rcases (compiledView_ok (List.forall₂_zip (artifact_ok ha).2 hv)).2 with
    ⟨_, hsignals⟩ | ⟨hunit, hsignals⟩
  · exact hsignals
  · -- an inner view has no components
    have hnode : c.tree.get? v.1 = some v.2 :=
      (ViewTree.mem_preorder hw).mp (List.of_mem_zip hv).1
    have hnone : c.registry.componentsOf v.1 = [] := by
      refine List.eq_nil_iff_forall_not_mem.mpr fun k hk => ?_
      obtain ⟨hk, hkv⟩ := Registry.mem_componentsOf.mp hk
      obtain ⟨view, u, hu, _⟩ := (declaredIn h hk).declared
      have hsome := (ViewTree.exists_mem_units hw).mp ⟨view, hu⟩
      rw [ViewTree.unit?, hkv, hnode, Option.bind_some, hunit] at hsome
      cases hsome
    rw [signalsOf, hnone, hsignals]
    rfl

/-- A component has its view among those of the artifact. -/
theorem exists_view_of_component (h : (ofSpec spec).result = .ok c) (ha : c.artifact.result = .ok a)
    {k : Component} (hk : k ∈ c.registry.components) :
    ∃ v cv u, (v, cv) ∈ c.tree.preorder.zip a.views ∧ k ∈ c.registry.componentsOf v.1 ∧
      v.2.content.unit? = some u ∧ u.selections.contains k.name := by
  obtain ⟨view, u, hu, hcontains⟩ := (declaredIn h hk).declared
  obtain ⟨v, hv, hunit⟩ := List.mem_filterMap.mp hu
  obtain ⟨u', hu', he⟩ := Option.map_eq_some_iff.mp hunit
  obtain ⟨hid, hrest⟩ := Prod.mk.inj he
  obtain ⟨_, rfl⟩ := Prod.mk.inj hrest
  obtain ⟨cv, hcv⟩ := exists_zip_of_mem_left (artifact_ok ha).2 hv
  exact ⟨v, cv, u', hcv, Registry.mem_componentsOf.mpr ⟨hk, hid.symm⟩, hu', hcontains⟩

end Compilation

/-! ## References between signals -/

/-- All references between the signals of an artifact are to signals that exist. -/
structure Artifact.Closed (a : Artifact) : Prop where
  /-- Whatever follows an object literal is the composite of the selection that it is
  named after. -/
  literals : ∀ r, (r ∈ a.signals ∨ ∃ v ∈ a.views, r ∈ v.signals) → r.IsLiteral →
    ∃ fs, r = Signal.composite r.name fs
  /-- On a view, what a handler waits for and what a composite lists is declared
  earlier. -/
  linked : ∀ v ∈ a.views, ∀ pre r post, v.signals = pre ++ r :: post →
    ∀ n, r.RefersTo n → n ∈ pre.map Signal.name
  /-- What a view pushes is received in the outermost scope. -/
  received : ∀ v ∈ a.views, ∀ n, Signal.push n ∈ v.signals →
    ∃ r ∈ a.signals, r.name = n ∧ r.isPush = false
  /-- What a signal of the outermost scope refers to is declared there. -/
  declared : ∀ r ∈ a.signals, ∀ n, r.RefersTo n → ∃ q ∈ a.signals, q.name = n
  /-- Nothing is pushed out of the outermost scope. -/
  outermost : ∀ r ∈ a.signals, r.isPush = false

namespace TopLevel.Sound
variable {t : TopLevel} {kept : String → List Field}

theorem isPush_eq_false (h : t.Sound kept) {r : Signal} (hr : r ∈ t.signals) :
    r.isPush = false := by
  rcases h.cases_mem r hr with rfl | ⟨n, rfl⟩ | ⟨s, _, rfl⟩
  · rfl
  · rfl
  · rfl

theorem eq_composite_of_isLiteral (h : t.Sound kept) {r : Signal} (hr : r ∈ t.signals)
    (hl : r.IsLiteral) : r = Signal.composite r.name (kept r.name) := by
  rcases h.cases_mem r hr with rfl | ⟨n, rfl⟩ | ⟨s, _, rfl⟩
  · exact absurd hl (Signal.not_isLiteral_of_update? rfl)
  · exact absurd hl (Signal.not_isLiteral_of_update? rfl)
  · rfl

theorem mem_names_of_refersTo (h : t.Sound kept) {r : Signal} (hr : r ∈ t.signals) {n : String}
    (hn : r.RefersTo n) : n ∈ t.names := by
  rcases h.cases_mem r hr with rfl | ⟨m, rfl⟩ | ⟨s, _, rfl⟩
  · rw [Signal.refersTo_iff_of_update? rfl] at hn
    cases hn
  · rw [Signal.refersTo_iff_of_update? rfl] at hn
    cases hn
  · obtain ⟨f, hf, rfl⟩ := Signal.refersTo_composite.mp hn
    exact h.declared s f hf

end TopLevel.Sound

theorem compile_ok {spec : ViewSpec} {a : Artifact} (h : (compile spec).result = .ok a) :
    ∃ c, (Compilation.ofSpec spec).result = .ok c ∧ c.artifact.result = .ok a :=
  Diagnosed.bind_result_ok.mp h

/-- **No reference dangles.**  In the artifact of a specification that compiles, every
reference between signals is to a signal that exists. -/
theorem compile_closed {spec : ViewSpec} {a : Artifact} (h : (compile spec).result = .ok a) :
    a.Closed := by
  obtain ⟨c, hc, ha⟩ := compile_ok h
  obtain ⟨hsignals, hviews⟩ := Compilation.artifact_ok ha
  have hsound := Compilation.sound_topLevel hc
  have hpush : ∀ r ∈ a.signals, r.isPush = false :=
    fun r hr => hsound.isPush_eq_false (hsignals ▸ hr)
  have hnames : ∀ n ∈ c.topLevel.names, ∃ r ∈ a.signals, r.name = n := by
    intro n hn
    rw [hsignals]
    exact List.mem_map.mp hn
  constructor
  · rintro r (hr | ⟨cv, hcv, hr⟩) hl
    · exact ⟨_, hsound.eq_composite_of_isLiteral (hsignals ▸ hr) hl⟩
    · obtain ⟨v, hv⟩ := exists_zip_of_mem_right hviews hcv
      obtain ⟨view, scaleName, he⟩ := unitSignals_ok (Compilation.signals_of_view hc ha hv)
      rw [he] at hr
      obtain ⟨k, _, hr⟩ := List.mem_flatMap.mp hr
      obtain rfl := Component.eq_composite_of_isLiteral hr hl
      exact ⟨k.fields, rfl⟩
  · intro cv hcv pre r post hsplit n hn
    obtain ⟨v, hv⟩ := exists_zip_of_mem_right hviews hcv
    have hlinked := linked_unitSignals (Compilation.signals_of_view hc ha hv) fun k hk =>
      Compilation.declaredIn hc (Registry.mem_componentsOf.mp hk).1
    rw [hsplit] at hlinked
    exact hlinked.at_split hn
  · intro cv hcv n hn
    obtain ⟨v, hv⟩ := exists_zip_of_mem_right hviews hcv
    obtain ⟨view, scaleName, he⟩ := unitSignals_ok (Compilation.signals_of_view hc ha hv)
    rw [he] at hn
    obtain ⟨k, hk, hn⟩ := List.mem_flatMap.mp hn
    obtain ⟨houter, f, hf, rfl⟩ := Component.push_mem_signals hn
    have hk := (Registry.mem_componentsOf.mp hk).1
    obtain ⟨r, hr, hname⟩ := hnames _ (Compilation.pushed_mem_topLevel hc hk houter hf)
    exact ⟨r, hr, hname, hpush r hr⟩
  · intro r hr n hn
    exact hnames n (hsound.mem_names_of_refersTo (hsignals ▸ hr) hn)
  · exact hpush

/-- Two views side by side that pan together, and can be brushed. -/
def ViewSpec.linkedViews : ViewSpec :=
  .concatenated default
    [points [(.x, .numeric "A"), (.y, .numeric "B")]
        [("grid", .scaleBound [.x, .y]), ("brush", ⟨.interval, .none⟩)],
      points [(.x, .numeric "B"), (.y, .numeric "C")]
        [("grid", .scaleBound [.x, .y]), ("pick", ⟨.single, .none⟩)]]

theorem compile_closed_linkedViews :
    ∃ a, (compile .linkedViews).result = .ok a ∧
      (∃ v ∈ a.views, Signal.push "grid_C" ∈ v.signals) ∧ a.Closed :=
  ⟨_, rfl, by decide +kernel, @compile_closed .linkedViews _ rfl⟩

end BrushLink
