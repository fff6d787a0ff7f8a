import BrushLink.Proofs.Signal.Names

/-! # The scope that owns a selection

A selection of several views is one selection, and its state should live in one place:
either every view has a composite of it, or only the outermost scope does.  But each
component settles on its own whether it lives in the outermost scope, by what its view
can drive and where its view is (`pushOuter_iff`).  All views agree on the terms of the
selection, so these two are all they can differ in.

The names of the signals of a view are those of its components
(`Compilation.exists_signal_named_iff`).  So once the outermost scope has a composite, no
view has a signal of that name exactly if every component of the selection lives in the
outermost scope and no other signal happens to have the name (`owner_scope_iff`).
-/
namespace BrushLink

/-- The names of the signals on the views of an artifact. -/
theorem Compilation.exists_signal_named_iff {spec : ViewSpec} {c : Compilation} {a : Artifact}
    (hc : (ofSpec spec).result = .ok c) (ha : c.artifact.result = .ok a) {n : String} :
    (∃ cv ∈ a.views, ∃ r ∈ cv.signals, r.name = n) ↔
      ∃ k ∈ c.registry.components, n ∈ k.ownNames ∨ k.pushOuter = false ∧ k.name = n := by
  -- a view has a signal of the name exactly if one of its components does
  have hview : ∀ v cv, (v, cv) ∈ c.tree.preorder.zip a.views →
      ((∃ r ∈ cv.signals, r.name = n) ↔ ∃ k ∈ c.registry.componentsOf v.1,
        n ∈ k.ownNames ∨ k.pushOuter = false ∧ k.name = n) := by
    intro v cv hv
    obtain ⟨view, scaleName, he⟩ := unitSignals_ok (signals_of_view hc ha hv)
    rw [← List.mem_map, he, List.map_flatMap, List.mem_flatMap]
    refine exists_congr fun k => and_congr_right fun hk => ?_
    exact Component.mem_names_signals (declaredIn hc (Registry.mem_componentsOf.mp hk).1)
  constructor
  · rintro ⟨cv, hcv, hr⟩
    obtain ⟨v, hv⟩ := exists_zip_of_mem_right (artifact_ok ha).2 hcv
    obtain ⟨k, hk, hname⟩ := (hview v cv hv).mp hr
    exact ⟨k, (Registry.mem_componentsOf.mp hk).1, hname⟩
  · rintro ⟨k, hk, hname⟩
    obtain ⟨v, cv, _, hv, hmem, _, _⟩ := exists_view_of_component hc ha hk
    exact ⟨cv, (List.of_mem_zip hv).2, (hview v cv hv).mpr ⟨k, hmem, hname⟩⟩

/-! ## Who lives in the outermost scope -/

/-- One of the scales that the projections of a component aim at can be driven. -/
def Component.CanDrive (tree : ViewTree) (scales : ScaleTable) (k : Component) : Prop :=
  ∃ c, (∃ p ∈ k.projections, p.aimsAt (tree.isDiagonal k.unit) c = true) ∧
    ∃ s, scales.lookup tree k.unit c = .ok (some s) ∧ s.type.canBeDriven = true

section Parsed
variable {spec : ViewSpec} {tree : ViewTree} {config : SelectionConfig} {scales : ScaleTable}
  {registry : Registry} {k k' : Component}

theorem scales_ne_nil_iff (htree : ViewTree.ofSpec spec = .ok tree)
    (h : (parseSelections tree config (.ofTree tree)).result = .ok (scales, registry))
    (hk : k ∈ registry.components) :
    k.scales ≠ [] ↔ k.BoundToScales ∧ k.CanDrive tree scales := by
  constructor
  · intro hne
    obtain ⟨c, hc⟩ := List.exists_mem_of_ne_nil _ hne
    obtain ⟨hbound, haims, hdrivable⟩ := (mem_scales_iff htree h hk).mp hc
    exact ⟨hbound, c, haims, hdrivable⟩
  · rintro ⟨hbound, c, haims, hdrivable⟩
    exact List.ne_nil_of_mem ((mem_scales_iff htree h hk).mpr ⟨hbound, haims, hdrivable⟩)

/-- A component lives in the outermost scope if its selection is bound to scales, its
view can drive one of them, and the view is not in the outermost scope already. -/
theorem pushOuter_iff (htree : ViewTree.ofSpec spec = .ok tree)
    (h : (parseSelections tree config (.ofTree tree)).result = .ok (scales, registry))
    (hk : k ∈ registry.components) :
    k.pushOuter = true ↔ k.BoundToScales ∧ k.CanDrive tree scales ∧
      Declaration.sharesOuterScope tree k.unit = .ok false := by
  rw [← and_assoc, ← scales_ne_nil_iff htree h hk]
  have hbound := fun hne => ((scales_ne_nil_iff htree h hk).mp hne).1
  obtain ⟨d, _, _, scope, outer, _, houter, rfl⟩ := exists_declaration_of_component h hk
  have hshares : Declaration.sharesOuterScope tree (d.filled config).unit = .ok false ↔
      outer = false := by
    constructor
    · intro hfalse
      exact Except.ok.inj (houter.symm.trans hfalse)
    · rintro rfl
      exact houter
  change ((d.filled config).isGlobalInterval &&
    !((d.filled config).driven (.ofTree tree) scope).isEmpty && !outer) = true ↔
      (d.filled config).driven (.ofTree tree) scope ≠ [] ∧
        Declaration.sharesOuterScope tree (d.filled config).unit = .ok false
  rw [hshares, Bool.and_eq_true, Bool.and_eq_true, Bool.not_eq_true', Bool.not_eq_true',
    ← Bool.not_eq_true, List.isEmpty_iff]
  constructor
  · rintro ⟨⟨_, hne⟩, hout⟩
    exact ⟨hne, hout⟩
  · rintro ⟨hne, hout⟩
    have hglobal := (Bool.and_eq_true _ _ ▸ Declaration.boundToScales_iff.mp (hbound hne)).2
    exact ⟨⟨hglobal, hne⟩, hout⟩

theorem Component.boundToScales_iff_terms :
    k.BoundToScales ↔ k.terms = (.interval, .global, some .scales) := by
  have hbind : k.bind = some .scales ↔ k.bind.map Bind.sorted = some .scales := by
    cases k.bind with
    | none => simp
    | some b => cases b <;> simp [Bind.sorted]
  rw [BoundToScales, terms, hbind, Prod.mk.injEq, Prod.mk.injEq]

end Parsed

/-- **When a selection has one owner.**  Let the outermost scope have a composite of a
selection.  Then no view has a signal of that name exactly if every view that declares
the selection can drive one of its scales and is not in the outermost scope itself, and
no other signal of a view happens to have the name. -/
theorem owner_scope_iff {spec : ViewSpec} {c : Compilation} {a : Artifact} {s : String}
    (hc : (Compilation.ofSpec spec).result = .ok c) (ha : c.artifact.result = .ok a)
    (hs : ∃ fs, Signal.composite s fs ∈ a.signals) :
    (∀ cv ∈ a.views, ∀ r ∈ cv.signals, r.name ≠ s) ↔
      (∀ k ∈ c.registry.components, k.name = s → k.CanDrive c.tree c.scales ∧
        Declaration.sharesOuterScope c.tree k.unit = .ok false) ∧
      ∀ k ∈ c.registry.components, s ∉ k.ownNames := by
  obtain ⟨htree, hparse⟩ := Compilation.ofSpec_steps hc
  -- some component of the selection lives in the outermost scope, so all are bound to scales
  have hbound : ∀ k ∈ c.registry.components, k.name = s → k.BoundToScales := by
    intro k hk hname
    obtain ⟨fs, hfs⟩ := hs
    rw [(Compilation.artifact_ok ha).1] at hfs
    obtain ⟨hne, rfl⟩ := (Compilation.sound_topLevel hc).composite_mem_iff.mp hfs
    obtain ⟨f, hf⟩ := List.exists_mem_of_ne_nil _ hne
    obtain ⟨⟨k₀, hk₀, hname₀, _⟩, _⟩ := TopLevel.mem_compositeFields.mp hf
    obtain ⟨hk₀, houter⟩ := (Compilation.mem_outerComponents hc).mp hk₀
    have hbound₀ := ((pushOuter_iff htree hparse hk₀).mp houter).1
    rw [Component.boundToScales_iff_terms] at hbound₀ ⊢
    rw [← hbound₀]
    exact components_agree hparse hk hk₀ (hname.trans hname₀.symm)
  have houter : ∀ k ∈ c.registry.components, k.name = s → (k.pushOuter = true ↔
      k.CanDrive c.tree c.scales ∧ Declaration.sharesOuterScope c.tree k.unit = .ok false) := by
    intro k hk hname
    rw [pushOuter_iff htree hparse hk]
    exact and_iff_right (hbound k hk hname)
  constructor
  · intro hnone
    have hno : ∀ k ∈ c.registry.components, ¬ (s ∈ k.ownNames ∨ k.pushOuter = false ∧ k.name = s) := by
      intro k hk hnamed
      obtain ⟨cv, hcv, r, hr, hname⟩ :=
        (Compilation.exists_signal_named_iff hc ha).mpr ⟨k, hk, hnamed⟩
      exact hnone cv hcv r hr hname
    constructor
    · intro k hk hname
      refine (houter k hk hname).mp ?_
      by_contra hpush
      exact hno k hk (Or.inr ⟨Bool.not_eq_true _ ▸ hpush, hname⟩)
    · intro k hk hown
      exact hno k hk (Or.inl hown)
  · rintro ⟨hdrive, hclash⟩ cv hcv r hr hname
    obtain ⟨k, hk, hown | ⟨hpush, hks⟩⟩ :=
      (Compilation.exists_signal_named_iff hc ha).mp ⟨cv, hcv, r, hr, hname⟩
    · exact hclash k hk hown
    · rw [(houter k hk hks).mpr (hdrive k hk hks)] at hpush
      cases hpush

theorem owner_scope_iff_linkedViews :
    ∃ c a, (Compilation.ofSpec .linkedViews).result = .ok c ∧ c.artifact.result = .ok a ∧
      Signal.composite "grid" [⟨"A"⟩, ⟨"B"⟩, ⟨"C"⟩] ∈ a.signals ∧
      ∀ cv ∈ a.views, ∀ r ∈ cv.signals, r.name ≠ "grid" := by
  have hc : (Compilation.ofSpec .linkedViews).result = .ok _ := rfl
  refine ⟨_, _, hc, rfl, ?composite, (owner_scope_iff hc rfl ⟨[⟨"A"⟩, ⟨"B"⟩, ⟨"C"⟩], ?composite⟩).mpr
    ⟨?outer, ?clash⟩⟩
  case composite => decide +kernel
  case outer =>
    obtain ⟨htree, hparse⟩ := Compilation.ofSpec_steps hc
    intro k hk hname
    refine ((pushOuter_iff htree hparse hk).mp ?_).2
    revert k
    decide +kernel
  case clash => decide +kernel

/-- A view on top of a group of layers, all panned together.  The view shares the
outermost scope, the layer of the group does not. -/
def ViewSpec.nestedLayers : ViewSpec :=
  .layered default
    [points [(.x, .numeric "A")] [("grid", .scaleBound [.x])],
      .layered default [points [(.x, .numeric "B")] [("grid", .scaleBound [.x])]]]

/-- The selection has a composite in the outermost scope and another one on a view. -/
theorem nestedLayers_two_owners :
    ∃ c a, (Compilation.ofSpec .nestedLayers).result = .ok c ∧ c.artifact.result = .ok a ∧
      Signal.composite "grid" [⟨"B"⟩] ∈ a.signals ∧
      ∃ cv ∈ a.views, Signal.composite "grid" [⟨"A"⟩] ∈ cv.signals :=
  ⟨_, _, rfl, rfl, by decide +kernel, by decide +kernel⟩

end BrushLink
