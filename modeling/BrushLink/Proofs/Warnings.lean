import BrushLink.Proofs.Assembly

/-! # What a compilation warns of

Warnings are kept in the order in which they arise.  A specification that compiles first warns
of its selections, one declaration after the other (`Compilation.ofSpec_warnings`), and then of
its scales, view by view and in canonical order of channels (`Compilation.artifact_warnings`).
The two stages have no class of warning in common, so each class can be looked up in one of
them.
-/
namespace BrushLink

/-! ## Selections -/

namespace Declaration
variable {tree : ViewTree} {scales : ScaleTable} {scope : List ViewId} {d : Declaration}
  {w : Warning}

theorem of_mem_captureWarnings (h : w ∈ d.captureWarnings) :
    w = d.warning w.cause ∧
      (w.code = .cannotProjectOnChannelWithoutField ∨ w.code = .intervalChannelUnsupported) := by
  rcases List.mem_append.mp h with h | h
  · obtain ⟨c, _, rfl⟩ := List.mem_map.mp h
    exact ⟨rfl, Or.inl rfl⟩
  · obtain ⟨p, _, rfl⟩ := List.mem_map.mp h
    exact ⟨rfl, Or.inr rfl⟩

theorem of_mem_bindingWarnings (h : w ∈ d.bindingWarnings scales scope) :
    w = d.warning w.cause ∧
      (w.code = .unsupportedScaleBinding ∨ w.code = .scaleBindingsContinuous) := by
  rw [bindingWarnings] at h
  split at h
  · obtain rfl := List.mem_singleton.mp h
    exact ⟨rfl, Or.inl rfl⟩
  · obtain ⟨t, _, rfl⟩ := List.mem_map.mp h
    exact ⟨rfl, Or.inr rfl⟩

/-- A declaration that becomes a component warns of its fields and then of its scales. -/
theorem parse_warnings_of_ok {parsed : ParsedSelection}
    (h : (d.parse tree scales).result = .ok parsed) (hscope : tree.ancestors d.unit = .ok scope) :
    (d.parse tree scales).warnings = d.captureWarnings ++ d.bindingWarnings scales scope := by
  obtain ⟨hne, scope', outer, hscope', houter, _⟩ := parse_ok h
  obtain rfl : scope' = scope := Except.ok.inj (hscope'.symm.trans hscope)
  rw [parse, if_neg fun hempty => hne (List.isEmpty_iff.mp hempty), hscope, houter]

/-- A declaration warns of itself, and never of a domain. -/
theorem of_mem_parse_warnings (h : w ∈ (d.parse tree scales).warnings) :
    w = d.warning w.cause ∧ w.code ≠ .selectionDomainMultipleFields := by
  have hcapture : w ∈ d.captureWarnings →
      w = d.warning w.cause ∧ w.code ≠ .selectionDomainMultipleFields := by
    intro hw
    obtain ⟨heq, hcode | hcode⟩ := of_mem_captureWarnings hw
    · exact ⟨heq, by simp [hcode]⟩
    · exact ⟨heq, by simp [hcode]⟩
  rw [parse] at h
  split at h
  · exact hcapture h
  · split at h
    · rcases List.mem_append.mp h with h | h
      · exact hcapture h
      · obtain ⟨heq, hcode | hcode⟩ := of_mem_bindingWarnings h
        · exact ⟨heq, by simp [hcode]⟩
        · exact ⟨heq, by simp [hcode]⟩
    · exact hcapture h
    · exact hcapture h

end Declaration

theorem ParseProgress.run_warnings {tree : ViewTree} {config : SelectionConfig}
    {scales : ScaleTable} {ds : List Declaration}
    (h : (run tree config scales ds).failure = none) :
    (run tree config scales ds).warnings =
      ds.flatMap fun d => ((d.filled config).parse tree scales).warnings := by
  induction ds with
  | nil => rfl
  | cons d ds ih =>
    rw [run] at h ⊢
    cases hstep : ((d.filled config).parse tree scales).result with
    | error e =>
      rw [hstep] at h
      cases h
    | ok parsed =>
      rw [hstep] at h
      rw [List.flatMap_cons]
      exact congrArg (_ ++ ·) (ih h)

theorem parseSelections_warnings {tree : ViewTree} {config : SelectionConfig}
    {scales scales' : ScaleTable} {registry : Registry}
    (h : (parseSelections tree config scales).result = .ok (scales', registry)) :
    (parseSelections tree config scales).warnings =
      tree.declarations.flatMap fun d => ((d.filled config).parse tree scales).warnings := by
  obtain ⟨registry₀, hcollect, hrest⟩ := Diagnosed.bind_result_ok.mp h
  obtain ⟨_, hwarn, hlast⟩ := Diagnosed.bind_result_ok.mp hrest
  have hfailure : (ParseProgress.run tree config scales tree.declarations).failure = none := by
    split at hlast
    · cases hlast
    · assumption
  rw [parseSelections, Diagnosed.bind_warnings_of_ok hcollect, Diagnosed.bind_warnings_of_ok hwarn,
    hfailure, ← ParseProgress.run_warnings hfailure]
  exact List.append_nil _

/-! ## Scales -/

/-- A domain only ever warns that it had to pick a field. -/
theorem SelectionDomain.code_of_mem_warnings {view : String} {d : SelectionDomain} {k : Component}
    {w : Warning} (h : w ∈ d.warnings view k) : w.code = .selectionDomainMultipleFields := by
  rw [warnings] at h
  split at h
  · obtain rfl := List.mem_singleton.mp h
    rfl
  · cases h

theorem SelectionDomain.code_of_mem_resolve_warnings {tree : ViewTree} {registry : Registry}
    {view : ViewId} {d : SelectionDomain} {w : Warning}
    (h : w ∈ (d.resolve tree registry view).warnings) : w.code = .selectionDomainMultipleFields := by
  rw [resolve] at h
  cases hlookup : registry.lookup tree view d.selection with
  | error e =>
    rw [hlookup] at h
    cases h
  | ok found =>
    rw [hlookup] at h
    cases found with
    | none => cases h
    | some k =>
      cases hname : tree.name view with
      | error e =>
        rw [hname] at h
        cases h
      | ok name =>
        rw [hname] at h
        have hw : w ∈ d.warnings name k := by
          rw [← List.append_nil (d.warnings name k)]
          exact h
        exact code_of_mem_warnings hw

theorem Scale.code_of_mem_driver_warnings {tree : ViewTree} {registry : Registry} {s : Scale}
    {w : Warning} (h : w ∈ (s.driver tree registry).warnings) :
    w.code = .selectionDomainMultipleFields := by
  rw [driver] at h
  split at h
  · cases h
  · exact SelectionDomain.code_of_mem_resolve_warnings h
  · cases h

theorem Scale.compile_warnings (tree : ViewTree) (registry : Registry) (s : Scale) :
    (s.compile tree registry).warnings = (s.driver tree registry).warnings :=
  Diagnosed.map_warnings (fun raw => (⟨s.name, s.type, s.compiledDomain, raw⟩ : CompiledScale))
    (s.driver tree registry)

namespace Compilation
variable {spec : ViewSpec} {c : Compilation} {a : Artifact}

/-- The scales in the order in which the artifact lists them: view by view, and those of a view
in canonical order of channels. -/
def listedScales (c : Compilation) : List Scale :=
  c.tree.preorder.flatMap fun v => c.scales.ownedBy v.1

theorem ofSpec_warnings (h : (ofSpec spec).result = .ok c) :
    (ofSpec spec).warnings = c.tree.declarations.flatMap fun d =>
      ((d.filled spec.head.config).parse c.tree (.ofTree c.tree)).warnings := by
  obtain ⟨htree, hparse⟩ := ofSpec_steps h
  rw [ofSpec, htree, Diagnosed.ofExcept_ok_bind, ofTree, Diagnosed.bind_warnings_of_ok hparse,
    parseSelections_warnings hparse]
  exact List.append_nil _

theorem compiledView_warnings {v : ViewId × ViewNode} {cv : CompiledView}
    (h : (c.compiledView v).result = .ok cv) :
    (c.compiledView v).warnings =
      (c.scales.ownedBy v.1).flatMap fun s => (s.driver c.tree c.registry).warnings := by
  obtain ⟨scales, hscales, _⟩ := Diagnosed.bind_result_ok.mp h
  obtain ⟨id, name, parent, content⟩ := v
  -- making the signals of a view warns of nothing
  have hsignals : ∀ x : Diagnosed (List Signal), x.warnings = [] →
      (x >>= fun signals => pure
        (⟨name, content.kindName, scales, signals⟩ : CompiledView)).warnings = [] := by
    intro x hx
    rw [← hx]
    exact Diagnosed.map_warnings
      (fun signals => (⟨name, content.kindName, scales, signals⟩ : CompiledView)) x
  have hview : (c.compiledView (id, ⟨name, parent, content⟩)).warnings =
      (c.scalesOf id).warnings := by
    rw [compiledView, Diagnosed.bind_warnings_of_ok hscales]
    cases content with
    | unit u => rw [hsignals _ rfl, List.append_nil]
    | composite k => rw [hsignals _ rfl, List.append_nil]
  rw [hview]
  exact (Diagnosed.forEach_warnings_of_ok hscales).trans
    (List.flatMap_congr fun s _ => s.compile_warnings c.tree c.registry)

/-- The artifact warns of its scales. -/
theorem artifact_warnings (h : c.artifact.result = .ok a) :
    c.artifact.warnings = c.listedScales.flatMap fun s => (s.driver c.tree c.registry).warnings := by
  obtain ⟨views, hviews, _⟩ := Diagnosed.bind_result_ok.mp h
  have hall := Diagnosed.forEach_result_ok.mp hviews
  rw [artifact, Diagnosed.bind_warnings_of_ok hviews, Diagnosed.forEach_warnings_of_ok hviews,
    listedScales, List.flatMap_assoc]
  refine (List.append_nil _).trans (List.flatMap_congr fun v hv => ?_)
  obtain ⟨cv, hcv⟩ := exists_zip_of_mem_left hall hv
  exact compiledView_warnings (List.forall₂_zip hall hcv)

theorem compile_warnings (h : (ofSpec spec).result = .ok c) :
    (compile spec).warnings = (ofSpec spec).warnings ++ c.artifact.warnings :=
  Diagnosed.bind_warnings_of_ok h

end Compilation

end BrushLink
