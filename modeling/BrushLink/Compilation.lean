import BrushLink.Artifact
import BrushLink.Selection.Registry
import BrushLink.Signal.TopLevel
import BrushLink.View.Expansion

/-!
# Compiling a specification

The tree, the scales and the selections of a specification are worked out
first; the artifact is then assembled from them, view by view.

A scale that follows a selection reads what the selection holds of one field:
the field that the domain names, else the field on the channel that it names,
else the first field that the selection captures.  A scale to which a selection
is bound is driven by that selection, whatever its declared domain.
-/

namespace BrushLink

/-- The field of a component that a domain follows. -/
def SelectionDomain.field? (tree : ViewTree) (d : SelectionDomain) (k : Component) :
    Option Field :=
  match d.field, d.encoding with
  | some f, _ => some f
  | none, some c =>
    ((k.projectionOn? c).map Projection.field).or ((tree.unit? k.unit).bind (·.field? c))
  | none, none => k.projections.head?.map Projection.field

/-- The warnings of a domain that follows a component: it should say which field
if there are several. -/
def SelectionDomain.warnings (view : String) (d : SelectionDomain) (k : Component) :
    List Warning :=
  match d.field, d.encoding, k.projections with
  | none, none, p :: _ :: _ => [⟨view, d.selection, .severalFields p.field⟩]
  | _, _, _ => []

/-- The expression that a domain follows, seen from a view; nothing if no
selection has the name or it has no such field. -/
def SelectionDomain.resolve (tree : ViewTree) (registry : Registry) (view : ViewId)
    (d : SelectionDomain) : Diagnosed (Option String) := do
  match ← Diagnosed.ofExcept (CompileError.ofTree (registry.lookup tree view d.selection)) with
  | none => pure none
  | some k =>
    let name ← Diagnosed.ofExcept (CompileError.ofTree (tree.name view))
    Diagnosed.warn (d.warnings name k)
    pure ((d.field? tree k).map (selectionEntry d.selection))

namespace Scale

/-- The expression that drives a scale. -/
def driver (tree : ViewTree) (registry : Registry) (s : Scale) : Diagnosed (Option String) :=
  match s.binding, s.domain with
  | some expression, _ => pure (some expression)
  | none, .selection d => d.resolve tree registry s.owner
  | none, _ => pure none

/-- The domain of the compiled scale. -/
def compiledDomain (s : Scale) : CompiledDomain :=
  match s.domain with
  | .literal values => .literal values
  | _ => .data s.fields

/-- The compiled scale. -/
def compile (tree : ViewTree) (registry : Registry) (s : Scale) : Diagnosed CompiledScale := do
  let raw ← s.driver tree registry
  pure ⟨s.name, s.type, s.compiledDomain, raw⟩

end Scale

/-- A specification, worked out: its tree, scales and selections. -/
structure Compilation where
  tree : ViewTree
  scales : ScaleTable
  registry : Registry

namespace Compilation

/-- Work out a tree. -/
def ofTree (tree : ViewTree) (config : SelectionConfig) : Diagnosed Compilation := do
  let (scales, registry) ← parseSelections tree config (ScaleTable.ofTree tree)
  pure ⟨tree, scales, registry⟩

/-- Work out a specification. -/
def ofSpec (spec : ViewSpec) : Diagnosed Compilation := do
  let tree ← Diagnosed.ofExcept (ViewTree.ofSpec spec)
  ofTree tree spec.head.config

/-- The compiled scales that a view owns, in canonical order of channels. -/
def scalesOf (c : Compilation) (view : ViewId) : Diagnosed (List CompiledScale) :=
  Diagnosed.forEach (Scale.compile c.tree c.registry) (c.scales.ownedBy view)

/-- Refuse a view that is not a unit view. -/
def requireUnit (c : Compilation) (view : ViewId) : Except CompileError Unit :=
  match c.tree.get? view with
  | some n => if n.content.unit?.isSome then .ok () else .error (.notAUnit n.name)
  | none => .error (.notAUnit ("#" ++ view.repr))

/-- The signals of a view, of which there are none on an inner view. -/
def signalsOf (c : Compilation) (view : ViewId) : Except ViewTree.Fault (List Signal) :=
  unitSignals c.tree c.scales view (c.registry.componentsOf view)

/-- The signals of a unit view. -/
def signalsOfUnit (c : Compilation) (view : ViewId) : Except CompileError (List Signal) := do
  c.requireUnit view
  CompileError.ofTree (c.signalsOf view)

/-- Merge a unit view into the outermost scope. -/
def mergeUnit (c : Compilation) (view : ViewId) (t : TopLevel) : Except CompileError TopLevel := do
  c.requireUnit view
  pure (t.merge (c.registry.componentsOf view))

/-- Assemble one view. -/
def compiledView (c : Compilation) (v : ViewId × ViewNode) : Diagnosed CompiledView := do
  let scales ← c.scalesOf v.1
  let signals ← match v.2.content with
    | .unit _ => Diagnosed.ofExcept (CompileError.ofTree (c.signalsOf v.1))
    | .composite _ => pure []
  pure ⟨v.2.name, v.2.content.kindName, scales, signals⟩

/-- The signals of the outermost scope: all unit views merged in the order of the
walk. -/
def topLevel (c : Compilation) : TopLevel :=
  c.tree.units.foldl (fun t u => t.merge (c.registry.componentsOf u.1)) .empty

/-- Assemble the artifact. -/
def artifact (c : Compilation) : Diagnosed Artifact := do
  let views ← Diagnosed.forEach c.compiledView c.tree.preorder
  pure ⟨c.topLevel.signals, views⟩

end Compilation

/-- Compile a specification. -/
def compile (spec : ViewSpec) : Diagnosed Artifact := do
  let c ← Compilation.ofSpec spec
  c.artifact

end BrushLink
