import BrushLink.Compilation
import BrushLink.Proofs.Result
import BrushLink.Proofs.Scale.Placement
import BrushLink.Proofs.Table

/-! # Components and the declarations they are made of

A specification that can be worked out has one component for each declaration, in
the order of the declarations, and its scales have the bindings of all of them
(`parseSelections_ok`).  So what the components are is known from how one
declaration is turned into one (`Component.DeclaredIn`).
-/
namespace BrushLink

/-! ## One declaration -/

/-- What holds of a component because it is made of a declaration in a tree. -/
structure Component.DeclaredIn (tree : ViewTree) (k : Component) : Prop where
  /-- Its selection is declared on its view. -/
  declared : ∃ view u, (k.unit, view, u) ∈ tree.units ∧ u.selections.contains k.name
  /-- It captures a field at most once. -/
  fields_nodup : (k.projections.map Projection.field).Nodup
  /-- An interval captures through positions only. -/
  positional : k.type = .interval → ∀ p ∈ k.projections, p.isPositional

theorem Projection.isPositional_iff {p : Projection} :
    p.isPositional = true ↔ p.channel = some .x ∨ p.channel = some .y := by
  rw [isPositional]
  cases p.channel with
  | none => simp
  | some c => cases c <;> simp [Channel.isPositional]

theorem UnitView.project_fields_nodup (u : UnitView) (s : Settings) :
    ((u.project s).map Projection.field).Nodup := by
  rw [project, List.map_map]
  exact (u.captured s).distinct

namespace Declaration
variable {tree : ViewTree} {scales : ScaleTable} {d : Declaration}

theorem kept_fields_nodup (d : Declaration) : (d.kept.map Projection.field).Nodup := by
  have hall := d.content.project_fields_nodup d.selection.settings
  rw [kept]
  split
  · exact hall.sublist (List.filter_sublist.map _)
  · exact hall

theorem kept_positional (h : d.selection.type = .interval) : ∀ p ∈ d.kept, p.isPositional := by
  intro p hp
  rw [kept, if_pos h] at hp
  exact (List.mem_filter.mp hp).2

/-- A declaration that becomes a component captures a field and knows its scope. -/
theorem parse_ok {parsed : ParsedSelection} (h : (d.parse tree scales).result = .ok parsed) :
    d.kept ≠ [] ∧ ∃ scope outer, tree.ancestors d.unit = .ok scope ∧
      sharesOuterScope tree d.unit = .ok outer ∧
      parsed = ⟨d.component scales scope outer, d.bindings scales scope⟩ := by
  rw [parse] at h
  split at h
  · cases h
  · rename_i hkept
    refine ⟨fun hnil => hkept (List.isEmpty_iff.mpr hnil), ?_⟩
    split at h
    · rename_i scope outer hscope houter
      exact ⟨scope, outer, hscope, houter, (Except.ok.inj h).symm⟩
    · cases h
    · cases h

end Declaration

theorem ViewTree.exists_unit_of_declaration {tree : ViewTree} {d : Declaration}
    (h : d ∈ tree.declarations) :
    (d.unit, d.view, d.content) ∈ tree.units ∧ d.content.selections.contains d.name := by
  obtain ⟨⟨v, view, u⟩, hu, hd⟩ := List.mem_flatMap.mp h
  obtain ⟨⟨name, selection⟩, he, rfl⟩ := List.mem_map.mp hd
  exact ⟨hu, Table.contains_iff.mpr (List.mem_map.mpr ⟨_, he, rfl⟩)⟩

/-! ## All declarations -/

/-- Unless one fails, declarations and components stand side by side. -/
theorem ParseProgress.forall₂_parsed {tree : ViewTree} {config : SelectionConfig}
    {scales : ScaleTable} {ds : List Declaration}
    (h : (run tree config scales ds).failure = none) :
    List.Forall₂ (fun d parsed => ((d.filled config).parse tree scales).result = .ok parsed) ds
      (run tree config scales ds).parsed := by
  induction ds with
  | nil => exact .nil
  | cons d ds ih =>
    rw [run] at h ⊢
    cases hstep : ((d.filled config).parse tree scales).result with
    | error e =>
      rw [hstep] at h
      cases h
    | ok parsed =>
      rw [hstep] at h
      exact .cons hstep (ih h)

namespace Registry
variable {tree : ViewTree} {config : SelectionConfig} {r : Registry}

theorem collect_components (h : collect tree config = .ok r) : r.components = [] := by
  refine foldlM_ok_induction (fun r => r.components = []) ?_ h rfl
  intro r₁ r₂ d _ hr hstep
  rw [declare] at hstep
  split at hstep
  · cases hstep
    exact hr
  · split at hstep
    · cases hstep
      exact hr
    · obtain ⟨_, _, hfail⟩ := Except.bind_eq_ok.mp hstep
      cases hfail

theorem components_foldl_attach (ks : List Component) (r : Registry) :
    (ks.foldl attach r).components = r.components ++ ks := by
  induction ks generalizing r with
  | nil => exact (List.append_nil _).symm
  | cons k ks ih => rw [List.foldl_cons, ih, attach, List.append_assoc, List.singleton_append]

theorem mem_componentsOf {v : ViewId} {k : Component} :
    k ∈ r.componentsOf v ↔ k ∈ r.components ∧ k.unit = v := by
  simp [componentsOf]

/-- What a name means is a component of that name. -/
theorem lookup_ok {view : ViewId} {name : String} {k : Component}
    (h : r.lookup tree view name = .ok (some k)) : k ∈ r.components ∧ k.name = name := by
  rw [lookup] at h
  split at h
  · cases h
  · obtain ⟨scopes, _, h⟩ := Except.bind_eq_ok.mp h
    obtain ⟨declaring, _, h⟩ := Except.bind_eq_ok.mp h
    obtain ⟨scope, _, hscope⟩ := List.exists_of_findSome?_eq_some (Except.ok.inj h)
    obtain ⟨u, _, hk⟩ := Option.bind_eq_some_iff.mp hscope
    exact ⟨(mem_componentsOf.mp (List.mem_of_find?_eq_some hk)).1,
      by simpa using List.find?_some hk⟩

end Registry

theorem parseSelections_ok {tree : ViewTree} {config : SelectionConfig}
    {scales scales' : ScaleTable} {registry : Registry}
    (h : (parseSelections tree config scales).result = .ok (scales', registry)) :
    ∃ parsed : List ParsedSelection,
      List.Forall₂ (fun d p => ((d.filled config).parse tree scales).result = .ok p)
        tree.declarations parsed ∧
      scales' = scales.bindAll (parsed.flatMap ParsedSelection.bindings) ∧
      registry.components = parsed.map ParsedSelection.component := by
  obtain ⟨registry₀, hcollect, h⟩ := Diagnosed.bind_result_ok.mp h
  obtain ⟨_, _, h⟩ := Diagnosed.bind_result_ok.mp h
  split at h
  · cases h
  · rename_i hfailure
    obtain ⟨rfl, rfl⟩ := Prod.mk.inj (Except.ok.inj h)
    refine ⟨_, ParseProgress.forall₂_parsed hfailure, rfl, ?_⟩
    rw [Registry.components_foldl_attach, Registry.collect_components hcollect]
    rfl

/-- A component comes of a declaration, together with its bindings.  The declaration
captures a field, and its view knows its scope. -/
theorem exists_declaration {tree : ViewTree} {config : SelectionConfig} {scales : ScaleTable}
    {ds : List Declaration} {parsed : List ParsedSelection} {p : ParsedSelection}
    (h : List.Forall₂ (fun d p => ((d.filled config).parse tree scales).result = .ok p) ds parsed)
    (hp : p ∈ parsed) :
    ∃ d ∈ ds, (d.filled config).kept ≠ [] ∧ ∃ scope outer, tree.ancestors d.unit = .ok scope ∧
      Declaration.sharesOuterScope tree d.unit = .ok outer ∧
      p = ⟨(d.filled config).component scales scope outer,
        (d.filled config).bindings scales scope⟩ := by
  obtain ⟨d, hd⟩ := exists_zip_of_mem_right h hp
  exact ⟨d, (List.of_mem_zip hd).1, Declaration.parse_ok (List.forall₂_zip h hd)⟩

theorem exists_declaration_of_component {tree : ViewTree} {config : SelectionConfig}
    {scales scales' : ScaleTable} {registry : Registry} {k : Component}
    (h : (parseSelections tree config scales).result = .ok (scales', registry))
    (hk : k ∈ registry.components) :
    ∃ d ∈ tree.declarations, (d.filled config).kept ≠ [] ∧ ∃ scope outer,
      tree.ancestors d.unit = .ok scope ∧
      Declaration.sharesOuterScope tree d.unit = .ok outer ∧
      k = (d.filled config).component scales scope outer := by
  obtain ⟨parsed, hparsed, _, hcomponents⟩ := parseSelections_ok h
  rw [hcomponents] at hk
  obtain ⟨p, hp, rfl⟩ := List.mem_map.mp hk
  obtain ⟨d, hd, hkept, scope, outer, hscope, houter, rfl⟩ := exists_declaration hparsed hp
  exact ⟨d, hd, hkept, scope, outer, hscope, houter, rfl⟩

/-! ## The whole specification -/

namespace Compilation
variable {spec : ViewSpec} {c : Compilation}

/-- A specification is worked out in two steps. -/
theorem ofSpec_steps (h : (ofSpec spec).result = .ok c) :
    ViewTree.ofSpec spec = .ok c.tree ∧
      (parseSelections c.tree spec.head.config (.ofTree c.tree)).result =
        .ok (c.scales, c.registry) := by
  obtain ⟨tree, htree, h⟩ := Diagnosed.bind_result_ok.mp h
  obtain ⟨⟨scales, registry⟩, hparse, h⟩ := Diagnosed.bind_result_ok.mp h
  cases Diagnosed.pure_result_ok.mp h
  exact ⟨htree, hparse⟩

theorem declaredIn (h : (ofSpec spec).result = .ok c) {k : Component}
    (hk : k ∈ c.registry.components) : k.DeclaredIn c.tree := by
  obtain ⟨d, hd, _, scope, outer, _, _, rfl⟩ :=
    exists_declaration_of_component (ofSpec_steps h).2 hk
  have hunit := ViewTree.exists_unit_of_declaration hd
  constructor
  · exact ⟨d.view, d.content, hunit⟩
  · exact (d.filled spec.head.config).kept_fields_nodup
  · exact fun htype => Declaration.kept_positional (d := d.filled spec.head.config) htype

end Compilation

/-- An interval that drives the scales of channels. -/
def SelectionDef.scaleBound (channels : List Channel) : SelectionDef :=
  ⟨.interval, { Settings.none with encodings := some channels, bind := some .scales }⟩

end BrushLink
