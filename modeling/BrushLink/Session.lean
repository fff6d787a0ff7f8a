import BrushLink.Compilation

/-!
# Working through a specification step by step

A session holds a specification that has been worked out, or is being worked
out unit by unit, together with the outermost scope merged so far and all
warnings raised so far.  A step that fails leaves what it did before the
failure: the bindings it entered and the warnings it raised.
-/

namespace BrushLink

/-- A specification in the works. -/
structure Session where
  compilation : Compilation
  config : SelectionConfig
  outer : TopLevel
  warnings : List Warning

namespace ViewTree

/-- The selections declared on a view that is expected to be a unit view. -/
def declarationsAt (t : ViewTree) (view : ViewId) : Except CompileError (List Declaration) := do
  let node ← CompileError.ofTree (t.node view)
  match node.content with
  | .unit u => pure (declarationsOn view node.name u)
  | .composite _ => .error (.notAUnit node.name)

end ViewTree

namespace Session

/-- A session on a specification that has been worked out. -/
def ofSpec (spec : ViewSpec) : Diagnosed Session :=
  let d := Compilation.ofSpec spec
  ⟨d.result.map fun c => ⟨c, spec.head.config, .empty, d.warnings⟩, d.warnings⟩

/-- A session on a specification of which only the tree and the scales have been
worked out. -/
def unparsed (spec : ViewSpec) : Except CompileError Session := do
  let tree ← ViewTree.ofSpec spec
  pure ⟨⟨tree, ScaleTable.ofTree tree, .empty⟩, spec.head.config, .empty, []⟩

/-- The view tree. -/
def tree (s : Session) : ViewTree := s.compilation.tree

/-- The scales. -/
def scales (s : Session) : ScaleTable := s.compilation.scales

/-- The selections. -/
def registry (s : Session) : Registry := s.compilation.registry

/-- Take a new registry. -/
def withRegistry (s : Session) (r : Registry) : Session :=
  { s with compilation := { s.compilation with registry := r } }

/-- Take a new table of scales. -/
def withScales (s : Session) (t : ScaleTable) : Session :=
  { s with compilation := { s.compilation with scales := t } }

/-- Keep the warnings of a step. -/
def heed {α : Type} (s : Session) (d : Diagnosed α) : Except CompileError α × Session :=
  (d.result, { s with warnings := s.warnings ++ d.warnings })

/-- Start over with the names declared in the tree. -/
def collect (s : Session) : Except CompileError Session :=
  (Registry.collect s.tree s.config).map s.withRegistry

/-- Record a component. -/
def attach (s : Session) (k : Component) : Session := s.withRegistry (s.registry.attach k)

/-- Turn the selections of a unit view into components, enter their bindings, and
record them if asked to. -/
def parseUnit (s : Session) (view : ViewId) (record : Bool) :
    Except CompileError (List Component) × Session :=
  match s.tree.declarationsAt view with
  | .error e => (.error e, s)
  | .ok ds =>
    let p := ParseProgress.run s.tree s.config s.scales ds
    let s := { s.withScales (p.bound s.scales) with warnings := s.warnings ++ p.warnings }
    match p.failure with
    | some e => (.error e, s)
    | none => (.ok p.components, if record then p.components.foldl attach s else s)

/-- Let an expression drive the scale that a view uses for a channel, and say
which scale that is. -/
def bindScale (s : Session) (view : ViewId) (c : Channel) (expression : String) :
    Except ViewTree.Fault (Option String × Session) := do
  match ← s.scales.lookup s.tree view c with
  | none => pure (none, s)
  | some scale =>
    pure (some scale.name, s.withScales (s.scales.bind scale.owner c expression))

end Session

end BrushLink
