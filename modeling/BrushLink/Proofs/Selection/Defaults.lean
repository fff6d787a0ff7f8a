import BrushLink.Proofs.View.Content

/-! # Defaults written out

A configuration saves writing: it says what holds for every selection of a type where the
declaration leaves it open.  A specification can do without, if each declaration says what
the configuration would have filled in (`ViewSpec.explicit`).  Both have trees of the same
shape, whose unit views declare the same once open settings are filled, so both compile to
the same (`compile_explicit`).

This rests on what is filled in being final: filling once more from the built-in defaults
changes nothing (`SelectionConfig.none_apply_apply`).
-/
namespace BrushLink

/-! ## Filling open settings -/

namespace Settings

theorem orElse_none (s : Settings) : s.orElse none = s := by
  obtain ⟨on, encodings, fields, resolve, bind⟩ := s
  cases encodings <;> cases fields <;> simp [orElse, projects, none]

/-- Filling twice is filling once. -/
theorem orElse_orElse_self (s defaults : Settings) :
    (s.orElse defaults).orElse defaults = s.orElse defaults := by
  obtain ⟨on, encodings, fields, resolve, bind⟩ := s
  cases on <;> cases encodings <;> cases fields <;> cases resolve <;> cases bind <;>
    simp [orElse, projects]

end Settings

namespace SelectionConfig

/-- A declaration whose open settings were filled stays as it is where nothing is
configured. -/
theorem none_apply_apply (config : SelectionConfig) (d : SelectionDef) :
    none.apply (config.apply d) = config.apply d := by
  have hnone : ∀ type, none.settingsFor type = .none := by
    intro type
    cases type <;> rfl
  simp only [apply, fill, SelectionDef.withDefaults, hnone, Settings.orElse_none,
    Settings.orElse_orElse_self]

/-- Declarations with their open settings filled. -/
def applyAll (config : SelectionConfig) (declared : Table String SelectionDef) :
    Table String SelectionDef :=
  declared.filterMap fun _ d => some (config.apply d)

theorem entries_applyAll (config : SelectionConfig) (declared : Table String SelectionDef) :
    (config.applyAll declared).entries = declared.entries.map fun e => (e.1, config.apply e.2) := by
  simp only [applyAll, Table.filterMap, Option.map_some, List.filterMap_eq_map']

end SelectionConfig

/-! ## Specifications -/

/-- The head with its declarations filled. -/
def ViewHead.filled (config : SelectionConfig) (head : ViewHead) : ViewHead :=
  { head with selections := config.applyAll head.selections }

namespace ViewSpec

mutual

/-- The specification with the declarations of all its views filled. -/
def filled (config : SelectionConfig) : ViewSpec → ViewSpec
  | .unit head mark => .unit (head.filled config) mark
  | .layered head children => .layered (head.filled config) (filledAll config children)
  | .concatenated head children => .concatenated (head.filled config) (filledAll config children)
  | .repeated head axes template => .repeated (head.filled config) axes (filled config template)
  | .faceted head template => .faceted (head.filled config) (filled config template)
  | .malformed head fault => .malformed (head.filled config) fault

/-- Several specifications with the declarations of all their views filled. -/
def filledAll (config : SelectionConfig) : List ViewSpec → List ViewSpec
  | [] => []
  | spec :: specs => filled config spec :: filledAll config specs

end

/-- The specification with another head on its outermost view. -/
def withHead (head : ViewHead) : ViewSpec → ViewSpec
  | .unit _ mark => .unit head mark
  | .layered _ children => .layered head children
  | .concatenated _ children => .concatenated head children
  | .repeated _ axes template => .repeated head axes template
  | .faceted _ template => .faceted head template
  | .malformed _ fault => .malformed head fault

/-- The specification without its configuration. -/
def withoutConfig (spec : ViewSpec) : ViewSpec :=
  spec.withHead { spec.head with config := .none }

/-- The specification with all defaults written out on its declarations, so that it needs no
configuration. -/
def explicit (spec : ViewSpec) : ViewSpec := (spec.filled spec.head.config).withoutConfig

theorem head_filled (config : SelectionConfig) (spec : ViewSpec) :
    (spec.filled config).head = spec.head.filled config := by
  cases spec <;> rw [filled] <;> rfl

theorem head_withHead (head : ViewHead) (spec : ViewSpec) : (spec.withHead head).head = head := by
  cases spec <;> rfl

end ViewSpec

/-! ## Trees -/

/-- The unit view with its declarations filled. -/
def UnitView.filled (config : SelectionConfig) (u : UnitView) : UnitView :=
  { u with selections := config.applyAll u.selections }

/-- The content with its declarations filled. -/
def ViewContent.filled (config : SelectionConfig) : ViewContent → ViewContent
  | .unit u => .unit (u.filled config)
  | .composite k => .composite k

theorem ViewContent.alike_filled (config : SelectionConfig) (content : ViewContent) :
    content.Alike config .none (content.filled config) := by
  cases content with
  | composite k => exact .composite (fun _ => rfl) Iff.rfl
  | unit u =>
    refine .unit ⟨rfl, rfl, rfl, ?_⟩
    rw [UnitView.filled, SelectionConfig.entries_applyAll, List.forall₂_map_right_iff,
      List.forall₂_same]
    exact fun e _ => ⟨rfl, config.none_apply_apply e.2⟩

theorem Place.unitView_filled (p : Place) (config : SelectionConfig) (head : ViewHead)
    (mark : Mark) :
    p.unitView (head.filled config) mark = UnitView.filled config <$> p.unitView head mark := by
  simp only [unitView, ViewHead.filled]
  cases head.encoding.values.findSome? p.danglingAxis? <;> rfl

namespace ViewTree
variable (config : SelectionConfig)

mutual

/-- A specification that was filled expands to the tree with its contents filled. -/
theorem expand_filled (spec : ViewSpec) (t : ViewTree) (p : Place) :
    (t.mapContent (ViewContent.filled config)).expand p (spec.filled config) =
      mapContent (ViewContent.filled config) <$> t.expand p spec := by
  match spec with
  | .malformed _ _ =>
    rw [ViewSpec.filled, expand, expand, checkName_mapContent, map_bind]
    rfl
  | .unit head mark =>
    rw [ViewSpec.filled, expand, expand, checkName_mapContent, Place.unitView_filled, map_bind]
    refine bind_congr fun _ => ?_
    rw [bind_map_left, map_bind]
    exact bind_congr fun u => addAt_mapContent p (.unit u)
  | .layered _ children | .concatenated _ children =>
    rw [ViewSpec.filled, expand, expand, size_mapContent]
    refine addAt_bind_mapContent (c := .composite _) fun t' => ?_
    exact expandAll_filled children t' _ _ _ _
  | .repeated _ axes template =>
    rw [ViewSpec.filled, expand, expand, size_mapContent]
    refine addAt_bind_mapContent (c := .composite _) fun t' => ?_
    exact foldlM_map_state _ (fun t'' i => expand_filled template t'' _) axes.instances t'
  | .faceted _ template =>
    rw [ViewSpec.filled, expand, expand, size_mapContent, ViewSpec.head_filled]
    refine addAt_bind_mapContent (c := .composite _) fun t' => ?_
    exact expand_filled template t' _

theorem expandAll_filled (specs : List ViewSpec) (t : ViewTree) (parent : ViewId) (p : Place)
    (word : String) (index : Nat) :
    (t.mapContent (ViewContent.filled config)).expandAll parent p word index
        (ViewSpec.filledAll config specs) =
      mapContent (ViewContent.filled config) <$> t.expandAll parent p word index specs := by
  match specs with
  | [] => rfl
  | c :: cs =>
    rw [ViewSpec.filledAll, expandAll, expandAll, ViewSpec.head_filled, expand_filled c,
      bind_map_left, map_bind]
    exact bind_congr fun t' => expandAll_filled cs _ _ _ _ _

end

/-- Of the head of a view, its name and its configuration are not read where it is expanded. -/
theorem expand_withHead {spec : ViewSpec} {head : ViewHead}
    (hencoding : head.encoding = spec.head.encoding)
    (hselections : head.selections = spec.head.selections)
    (hresolve : head.resolve = spec.head.resolve) (t : ViewTree) (p : Place) :
    t.expand p (spec.withHead head) = t.expand p spec := by
  cases spec with
  | unit spec mark =>
    have hunit : p.unitView head mark = p.unitView spec mark := by
      simp only [Place.unitView, hencoding, hselections, ViewSpec.head]
    simp only [ViewSpec.withHead, expand, hunit]
  | _ => simp only [ViewSpec.withHead, expand, hresolve, ViewSpec.head]

theorem ofSpec_withoutConfig (spec : ViewSpec) : ofSpec spec.withoutConfig = ofSpec spec := by
  rw [ofSpec, ofSpec, ViewSpec.withoutConfig, ViewSpec.head_withHead]
  apply expand_withHead <;> rfl

theorem ofSpec_explicit (spec : ViewSpec) :
    ofSpec spec.explicit =
      mapContent (ViewContent.filled spec.head.config) <$> ofSpec spec := by
  rw [ViewSpec.explicit, ofSpec_withoutConfig, ofSpec, ofSpec, ViewSpec.head_filled]
  exact expand_filled spec.head.config spec empty _

end ViewTree

/-- **A configuration only saves writing.**  With the defaults written out on every
declaration, and without its configuration, a specification compiles to the same artifact
with the same warnings, or fails in the same way. -/
theorem compile_explicit (spec : ViewSpec) : compile spec.explicit = compile spec := by
  refine compile_eq_of_mapContent (ViewTree.ofSpec_explicit spec) ?_ ?_
  · intro t _ v n _
    have hconfig : spec.explicit.head.config = .none := by
      rw [ViewSpec.explicit, ViewSpec.withoutConfig, ViewSpec.head_withHead]
    rw [hconfig]
    exact n.content.alike_filled spec.head.config
  · intro content
    cases content <;> rfl

/-- Intervals drive the scale of the horizontal position unless they say otherwise. -/
def ViewSpec.panByDefault : ViewSpec :=
  .unit { (default : ViewHead) with
    encoding := Table.ofList [(.x, .numeric "A"), (.y, .numeric "B")]
    selections := Table.ofList
      [("grid", ⟨.interval, { Settings.none with on := "drag" }⟩), ("pick", ⟨.single, .none⟩)]
    config := { SelectionConfig.none with
      interval := { Settings.none with
        on := "pan", encodings := some [.x], bind := some .scales } } } .point

/-- The same with the defaults written out, the configured before the built-in ones. -/
def ViewSpec.panWrittenOut : ViewSpec :=
  .unit { (default : ViewHead) with
    encoding := Table.ofList [(.x, .numeric "A"), (.y, .numeric "B")]
    selections := Table.ofList
      [("grid", ⟨.interval, ⟨"drag", some [.x], none, some .global, some .scales⟩⟩),
        ("pick", ⟨.single, ⟨"click", none, none, some .global, none⟩⟩)] } .point

/-- Nothing would be driven if the configuration were dropped and not written out. -/
theorem compile_explicit_panByDefault :
    compile .panWrittenOut = compile .panByDefault ∧
      ∃ a a', (compile .panByDefault).result = .ok a ∧
        (compile ViewSpec.panByDefault.withoutConfig).result = .ok a' ∧
        a.scales.map CompiledScale.raw = [some "grid[\"A\"]", none] ∧
        a'.scales.map CompiledScale.raw = [none, none] := by
  have hexplicit : ViewSpec.panByDefault.explicit = .panWrittenOut := rfl
  refine ⟨?_, _, _, rfl, rfl, by decide +kernel, by decide +kernel⟩
  rw [← hexplicit]
  exact compile_explicit .panByDefault

end BrushLink
