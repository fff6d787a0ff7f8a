import BrushLink.Proofs.Assembly
import BrushLink.Proofs.Selection.Driving

/-! # The fields that composites hold

A scale that is driven by a selection reads `selection["field"]`, so the field should
be a key of a composite of the selection.  Which keys there are is settled in three
places: which fields a component captures, which channels it drives, and which
signal names are taken in the outermost scope.

* A selection that does not live in the outermost scope holds what it captures.
* A selection that does live there holds the fields of the channels it drives, unless
  the name of the field's data signal was taken (`TopLevel.preempted`).

So the outermost composite of a selection is complete exactly if none of its data
signals was preempted (`TopLevel.Sound.update_iff`), and the key that a driven scale
reads is there exactly if some component of the selection holds it
(`Compilation.keyHeld_iff`).  Neither can be taken for granted, and for each a small
specification is given where it fails.
-/
namespace BrushLink

/-- A list of signals has a composite of a selection with a field among its keys. -/
def HoldsKey (rs : List Signal) (s : String) (f : Field) : Prop :=
  ∃ fs, Signal.composite s fs ∈ rs ∧ f ∈ fs

/-! ## In the outermost scope -/

namespace TopLevel
variable {t : TopLevel} {kept : String → List Field} {s : String} {f : Field}

theorem get?_eq_some_iff (hd : t.names.Nodup) {n : String} {r : Signal} :
    t.get? n = some r ↔ r ∈ t.signals ∧ r.name = n :=
  find?_key_eq_some_iff hd

/-- A selection has one composite, over the fields kept for it. -/
theorem Sound.composite_mem_iff (h : t.Sound kept) {fs : List Field} :
    Signal.composite s fs ∈ t.signals ↔ fs ≠ [] ∧ fs = kept s := by
  constructor
  · intro hmem
    rcases h.cases_mem _ hmem with he | ⟨n, he⟩ | ⟨s', hne, he⟩
    · cases he
    · cases he
    · obtain ⟨rfl, rfl⟩ := composite_inj he
      exact ⟨hne, rfl⟩
  · rintro ⟨hne, rfl⟩
    exact h.composite_mem s hne

theorem Sound.holdsKey_iff (h : t.Sound kept) : HoldsKey t.signals s f ↔ f ∈ kept s := by
  constructor
  · rintro ⟨fs, hmem, hf⟩
    exact (h.composite_mem_iff.mp hmem).2 ▸ hf
  · intro hf
    exact ⟨kept s, h.composite_mem_iff.mpr ⟨List.ne_nil_of_mem hf, rfl⟩, hf⟩

/-- The signal of a selection's name is a composite over given fields exactly if
these are the fields kept. -/
theorem Sound.update_iff (h : t.Sound kept) {fs : List Field} (hne : fs ≠ []) :
    (∃ r, t.get? s = some r ∧ r.update? = some (compositeUpdate (compositeEntries s fs))) ↔
      fs = kept s := by
  constructor
  · rintro ⟨r, hr, hupdate⟩
    obtain ⟨hmem, hname⟩ := (get?_eq_some_iff h.names_nodup).mp hr
    rcases h.cases_mem r hmem with rfl | ⟨n, rfl⟩ | ⟨s', _, rfl⟩
    · cases hupdate
    · cases hupdate
    · obtain rfl : s' = s := hname
      exact (compositeUpdate_inj (Option.some.inj hupdate)).symm
  · intro he
    have hmem := h.composite_mem_iff.mpr ⟨hne, he⟩
    exact ⟨_, (get?_eq_some_iff h.names_nodup).mpr ⟨hmem, rfl⟩, rfl⟩

theorem compositeFields_eq_iff {outer : List Component} :
    pushedUnion s outer = compositeFields outer s ↔
      ∀ f ∈ pushedUnion s outer, preempted s f [tracker.name] outer = false := by
  rw [compositeFields, eq_comm, List.filter_eq_self]
  simp

theorem mem_compositeFields {outer : List Component} :
    f ∈ compositeFields outer s ↔
      (∃ k ∈ outer, k.name = s ∧ f ∈ k.pushedFields) ∧
        preempted s f [tracker.name] outer = false := by
  rw [compositeFields, List.mem_filter, mem_pushedUnion, Bool.not_eq_true']

end TopLevel

/-- **What the outermost composite of a selection holds.**  Of a selection that keeps
fields in the outermost scope, the composite there lists those that are not
preempted, and there is none if all are.  So it lists all of them, each once and in
order of first mention, exactly if none is preempted. -/
theorem outermost_composite_iff {spec : ViewSpec} {c : Compilation} {a : Artifact} {s : String}
    (hc : (Compilation.ofSpec spec).result = .ok c) (ha : c.artifact.result = .ok a)
    (hs : ∃ k ∈ c.outerComponents, k.name = s ∧ k.pushedFields ≠ []) :
    (∀ fs, Signal.composite s fs ∈ a.signals ↔
      fs ≠ [] ∧ fs = (TopLevel.pushedUnion s c.outerComponents).filter fun f =>
        !TopLevel.preempted s f [TopLevel.tracker.name] c.outerComponents) ∧
    ((∃ r, a.signal? s = some r ∧ r.update? = some (compositeUpdate
        (compositeEntries s (TopLevel.pushedUnion s c.outerComponents)))) ↔
      ∀ f ∈ TopLevel.pushedUnion s c.outerComponents,
        TopLevel.preempted s f [TopLevel.tracker.name] c.outerComponents = false) := by
  have hsound := Compilation.sound_topLevel hc
  have hsignals := (Compilation.artifact_ok ha).1
  refine ⟨fun fs => ?_, ?_⟩
  · rw [hsignals]
    exact hsound.composite_mem_iff
  · obtain ⟨k, hk, hname, hpushed⟩ := hs
    obtain ⟨f, hf⟩ := List.exists_mem_of_ne_nil _ hpushed
    have hne := List.ne_nil_of_mem (TopLevel.mem_pushedUnion.mpr ⟨k, hk, hname, hf⟩)
    have hget : a.signal? s = c.topLevel.get? s := by rw [Artifact.signal?, hsignals]; rfl
    rw [hget, hsound.update_iff hne, TopLevel.compositeFields_eq_iff]

theorem outermost_composite_iff_linkedViews :
    ∃ c a, (Compilation.ofSpec .linkedViews).result = .ok c ∧ c.artifact.result = .ok a ∧
      (∃ k ∈ c.outerComponents, k.name = "grid" ∧ k.pushedFields ≠ []) ∧
      ∃ r, a.signal? "grid" = some r ∧
        r.update? = some (compositeUpdate (compositeEntries "grid" [⟨"A"⟩, ⟨"B"⟩, ⟨"C"⟩])) := by
  have hc : (Compilation.ofSpec .linkedViews).result = .ok _ := rfl
  refine ⟨_, _, hc, rfl, ?outer, (outermost_composite_iff hc rfl ?outer).2.mpr ?free⟩
  case outer => decide +kernel
  case free => decide +kernel

/-- Two views, each with a selection that drives its scale.  The second one, `a`, has
the field `b`, and its data signal would be named like the first selection, `a_b`. -/
def ViewSpec.nameClash : ViewSpec :=
  .concatenated default
    [points [(.x, .numeric "c")] [("a_b", .scaleBound [.x])],
      points [(.x, .numeric "b")] [("a", .scaleBound [.x])]]

/-- The second selection has no composite at all. -/
theorem nameClash_no_composite :
    ∃ c a, (Compilation.ofSpec .nameClash).result = .ok c ∧ c.artifact.result = .ok a ∧
      (∃ k ∈ c.outerComponents, k.name = "a" ∧ k.pushedFields ≠ []) ∧
      TopLevel.pushedUnion "a" c.outerComponents = [⟨"b"⟩] ∧ a.signal? "a" = none :=
  ⟨_, _, rfl, rfl, by decide +kernel, by decide +kernel, by decide +kernel⟩

/-! ## On all views -/

/-- A component holds a field: in the composite of its view if it captures it, or in
the outermost one, among the components that live there. -/
def Component.Holds (outer : List Component) (k : Component) (f : Field) : Prop :=
  if k.pushOuter then
    f ∈ k.pushedFields ∧ TopLevel.preempted k.name f [TopLevel.tracker.name] outer = false
  else f ∈ k.fields

instance (outer : List Component) (k : Component) (f : Field) : Decidable (k.Holds outer f) :=
  inferInstanceAs (Decidable (if k.pushOuter then
    f ∈ k.pushedFields ∧ TopLevel.preempted k.name f [TopLevel.tracker.name] outer = false
  else f ∈ k.fields))

namespace Compilation
variable {spec : ViewSpec} {c : Compilation} {a : Artifact} {s : String} {f : Field}

/-- Some signals of the artifact hold a key of a selection: the outermost ones, or
those of a unit view that declares it. -/
def KeyHeld (c : Compilation) (a : Artifact) (s : String) (f : Field) : Prop :=
  HoldsKey a.signals s f ∨ ∃ v cv u, (v, cv) ∈ c.tree.preorder.zip a.views ∧
    v.2.content.unit? = some u ∧ u.selections.contains s ∧ HoldsKey cv.signals s f

theorem holdsKey_view_iff (hc : (ofSpec spec).result = .ok c) (ha : c.artifact.result = .ok a)
    {v : ViewId × ViewNode} {cv : CompiledView} (hv : (v, cv) ∈ c.tree.preorder.zip a.views) :
    HoldsKey cv.signals s f ↔
      ∃ k ∈ c.registry.componentsOf v.1, k.pushOuter = false ∧ k.name = s ∧ f ∈ k.fields := by
  obtain ⟨view, scaleName, he⟩ := unitSignals_ok (signals_of_view hc ha hv)
  rw [HoldsKey, he]
  constructor
  · rintro ⟨fs, hmem, hf⟩
    obtain ⟨k, hk, hmem⟩ := List.mem_flatMap.mp hmem
    obtain ⟨houter, hname, rfl⟩ := Component.composite_mem_signals.mp hmem
    exact ⟨k, hk, houter, hname, hf⟩
  · rintro ⟨k, hk, houter, hname, hf⟩
    have hmem : Signal.composite s k.fields ∈ k.signals view scaleName :=
      Component.composite_mem_signals.mpr ⟨houter, hname, rfl⟩
    exact ⟨k.fields, List.mem_flatMap.mpr ⟨k, hk, hmem⟩, hf⟩

/-- A key is held exactly if a component of the selection holds it. -/
theorem keyHeld_iff (hc : (ofSpec spec).result = .ok c) (ha : c.artifact.result = .ok a) :
    c.KeyHeld a s f ↔
      ∃ k ∈ c.registry.components, k.name = s ∧ k.Holds c.outerComponents f := by
  have houtermost : HoldsKey a.signals s f ↔ f ∈ TopLevel.compositeFields c.outerComponents s := by
    rw [(artifact_ok ha).1]
    exact (sound_topLevel hc).holdsKey_iff
  rw [KeyHeld, houtermost, TopLevel.mem_compositeFields]
  constructor
  · rintro (⟨⟨k, hk, rfl, hf⟩, hfree⟩ | ⟨v, cv, u, hv, _, _, hkey⟩)
    · obtain ⟨hk, houter⟩ := (mem_outerComponents hc).mp hk
      refine ⟨k, hk, rfl, ?_⟩
      rw [Component.Holds, if_pos houter]
      exact ⟨hf, hfree⟩
    · obtain ⟨k, hk, houter, hname, hf⟩ := (holdsKey_view_iff hc ha hv).mp hkey
      refine ⟨k, (Registry.mem_componentsOf.mp hk).1, hname, ?_⟩
      rw [Component.Holds, if_neg (by rw [houter]; exact nofun)]
      exact hf
  · rintro ⟨k, hk, rfl, hholds⟩
    rw [Component.Holds] at hholds
    split at hholds
    · rename_i houter
      exact Or.inl ⟨⟨k, (mem_outerComponents hc).mpr ⟨hk, houter⟩, rfl, hholds.1⟩, hholds.2⟩
    · rename_i houter
      -- the view of the component is one of the walk, and has its composite
      obtain ⟨v, cv, u, hcv, hmem, hu, hcontains⟩ := exists_view_of_component hc ha hk
      refine Or.inr ⟨v, cv, u, hcv, hu, hcontains, (holdsKey_view_iff hc ha hcv).mpr ?_⟩
      exact ⟨k, hmem, Bool.not_eq_true _ ▸ houter, rfl, hholds⟩

/-! ## What driven scales read -/

/-- The scales of an artifact come from those of the table. -/
theorem exists_scale_of_mem_scales (ha : c.artifact.result = .ok a) {cs : CompiledScale}
    (hcs : cs ∈ a.scales) :
    ∃ sc ∈ c.scales.toList, (sc.compile c.tree c.registry).result = .ok cs := by
  obtain ⟨cv, hcv, hcs⟩ := List.mem_flatMap.mp hcs
  have hviews := (artifact_ok ha).2
  obtain ⟨v, hv⟩ := exists_zip_of_mem_right hviews hcv
  have hscales := Diagnosed.forEach_result_ok.mp (compiledView_ok (List.forall₂_zip hviews hv)).1
  obtain ⟨sc, hsc⟩ := exists_zip_of_mem_right hscales hcs
  obtain ⟨ch, _, hget⟩ := List.mem_filterMap.mp (List.of_mem_zip hsc).1
  exact ⟨sc, List.mem_map.mpr ⟨_, Table.get?_eq_some_iff.mp hget, rfl⟩, List.forall₂_zip hscales hsc⟩

/-- A scale that is bound, or follows a selection without saying which field, reads a
captured field. -/
theorem exists_component_of_driven (hc : (ofSpec spec).result = .ok c) {sc : Scale}
    {cs : CompiledScale} (hsc : sc ∈ c.scales.toList)
    (hcs : (sc.compile c.tree c.registry).result = .ok cs)
    (hdriven : sc.binding.isSome ∨ ∃ sel, sc.domain = .selection ⟨sel, none, none⟩)
    (hraw : cs.raw = some (selectionEntry s f)) :
    ∃ k ∈ c.registry.components, k.name = s ∧ f ∈ k.fields := by
  obtain ⟨raw, hdriver, hcs⟩ := Diagnosed.bind_result_ok.mp hcs
  obtain rfl : raw = some (selectionEntry s f) := by
    rw [← hraw, ← Diagnosed.pure_result_ok.mp hcs]
  cases hbinding : sc.binding with
  | some e =>
    obtain ⟨o, ch, hget⟩ := ScaleTable.exists_get?_of_mem_toList hsc
    obtain ⟨k, hk, g, hg, rfl⟩ := exists_component_of_binding hc hget hbinding
    rw [Scale.driver, hbinding] at hdriver
    obtain ⟨rfl, rfl⟩ := selectionEntry_inj (Option.some.inj (Diagnosed.pure_result_ok.mp hdriver))
    exact ⟨k, hk, rfl, hg⟩
  | none =>
    rcases hdriven with hsome | ⟨sel, hdomain⟩
    · rw [hbinding] at hsome
      cases hsome
    · rw [Scale.driver, hbinding, hdomain] at hdriver
      obtain ⟨found, hlookup, hdriver⟩ := Diagnosed.bind_result_ok.mp hdriver
      cases found with
      | none => cases Diagnosed.pure_result_ok.mp hdriver
      | some k =>
        obtain ⟨hk, hname⟩ := Registry.lookup_ok (CompileError.ofTree_eq_ok.mp hlookup)
        obtain ⟨_, _, hdriver⟩ := Diagnosed.bind_result_ok.mp hdriver
        obtain ⟨_, _, hdriver⟩ := Diagnosed.bind_result_ok.mp hdriver
        obtain ⟨g, hg, he⟩ := Option.map_eq_some_iff.mp (Diagnosed.pure_result_ok.mp hdriver)
        obtain ⟨rfl, rfl⟩ := selectionEntry_inj he
        obtain ⟨p, hp, rfl⟩ := Option.map_eq_some_iff.mp hg
        exact ⟨k, hk, hname, List.mem_map_of_mem (List.mem_of_mem_head? hp)⟩

end Compilation

/-- **When driven scales read what exists.**  Every scale of an artifact comes from one
of the table.  Where such a scale is bound, or follows a selection without saying
which field, it reads a field that a component of the selection captures; and that
field is a key of a composite of the selection exactly if some component of it holds
the field. -/
theorem driven_scale_key_iff {spec : ViewSpec} {c : Compilation} {a : Artifact}
    (hc : (Compilation.ofSpec spec).result = .ok c) (ha : c.artifact.result = .ok a) :
    (∀ cs ∈ a.scales, ∃ sc ∈ c.scales.toList, (sc.compile c.tree c.registry).result = .ok cs) ∧
    ∀ sc ∈ c.scales.toList, ∀ cs, (sc.compile c.tree c.registry).result = .ok cs →
      (sc.binding.isSome ∨ ∃ sel, sc.domain = .selection ⟨sel, none, none⟩) →
      ∀ s f, cs.raw = some (selectionEntry s f) →
        (∃ k ∈ c.registry.components, k.name = s ∧ f ∈ k.fields) ∧
        (c.KeyHeld a s f ↔
          ∃ k ∈ c.registry.components, k.name = s ∧ k.Holds c.outerComponents f) := by
  refine ⟨fun cs hcs => Compilation.exists_scale_of_mem_scales ha hcs, ?_⟩
  intro sc hsc cs hcs hdriven s f hraw
  exact ⟨Compilation.exists_component_of_driven hc hsc hcs hdriven hraw,
    Compilation.keyHeld_iff hc ha⟩

theorem driven_scale_key_iff_linkedViews :
    ∃ c a, (Compilation.ofSpec .linkedViews).result = .ok c ∧ c.artifact.result = .ok a ∧
      ∃ sc ∈ c.scales.toList, sc.binding.isSome ∧
        ∃ cs, (sc.compile c.tree c.registry).result = .ok cs ∧
          cs.raw = some (selectionEntry "grid" ⟨"C"⟩) ∧ c.KeyHeld a "grid" ⟨"C"⟩ := by
  have hc : (Compilation.ofSpec .linkedViews).result = .ok _ := rfl
  refine ⟨_, _, hc, rfl, _, List.mem_of_getElem? (i := 3) rfl, rfl, _, rfl, rfl, ?_⟩
  have hkey := (driven_scale_key_iff hc rfl).2 _ (List.mem_of_getElem? (i := 3) rfl) _ rfl
    (Or.inl rfl) "grid" ⟨"C"⟩ rfl
  exact hkey.2.mpr (by decide +kernel)

/-- A scatter plot of a field against itself, by rows and columns, whose `y` has no
continuous scale.  The field is captured through `y`, and drives `x` because rows and
columns repeat the same field. -/
def ViewSpec.discreteDiagonal : ViewSpec :=
  .repeated default (.grid ["A"] ["A"])
    (points [(.x, .single ⟨some (.repeated .column), .quantitative, false, none, .data⟩),
        (.y, .single ⟨some (.repeated .row), .nominal, false, none, .data⟩)]
      [("s", .scaleBound [.x, .y])])

/-- The scale of `x` reads a key that no composite has. -/
theorem discreteDiagonal_key_missing :
    ∃ c a, (Compilation.ofSpec .discreteDiagonal).result = .ok c ∧ c.artifact.result = .ok a ∧
      (∃ sc ∈ c.scales.toList, sc.binding.isSome ∧
        ∃ cs ∈ a.scales, (sc.compile c.tree c.registry).result = .ok cs ∧
          cs.raw = some (selectionEntry "s" ⟨"A"⟩)) ∧
      ¬ c.KeyHeld a "s" ⟨"A"⟩ := by
  have hc : (Compilation.ofSpec .discreteDiagonal).result = .ok _ := rfl
  refine ⟨_, _, hc, rfl, ⟨_, List.mem_of_getElem? (i := 0) rfl, rfl, _,
    List.mem_of_getElem? (i := 0) rfl, rfl, rfl⟩, ?_⟩
  rw [Compilation.keyHeld_iff hc rfl]
  decide +kernel

end BrushLink
