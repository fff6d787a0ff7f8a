import BrushLink.Selection.Component

/-!
# The registry of selections

Selection names form one space for the whole specification.  Several views may
declare the same name; they then speak of one selection and must agree on its
type, its resolution and what it is bound to.

Seen from a view, a name means the declaration in the nearest scope: of the
ancestors that contain a declaring view the innermost, and in it the first
declaring view of the walk.
-/

namespace BrushLink

/-- A selection name and the views that declare it. -/
structure SelectionEntry where
  name : String
  type : SelectionType
  resolve : Resolution
  bind : Option Bind
  /-- The first view that declares it. -/
  first : ViewId
  /-- The other views that declare it, in the order of the walk. -/
  others : List ViewId
  deriving DecidableEq

namespace SelectionEntry

/-- The views that declare the name, in the order of the walk. -/
def declaredIn (e : SelectionEntry) : List ViewId := e.first :: e.others

/-- Whether two bindings, if any, say the same. -/
def sameBind : Option Bind → Option Bind → Bool
  | none, none => true
  | some a, some b => a.same b
  | _, _ => false

/-- Whether two declarations of a name agree. -/
def agrees (a b : SelectionEntry) : Bool :=
  a.type = b.type && a.resolve = b.resolve && sameBind a.bind b.bind

/-- The entry of a name that is declared once, its open settings filled. -/
def ofDeclaration (d : Declaration) : SelectionEntry where
  name := d.name
  type := d.selection.type
  resolve := d.resolve
  bind := d.selection.settings.bind
  first := d.unit
  others := []

end SelectionEntry

/-- The selections of a specification: the declared names, and the components
made of the declarations. -/
structure Registry where
  entries : Table String SelectionEntry
  components : List Component
  deriving DecidableEq

namespace Registry

/-- The registry without selections. -/
def empty : Registry := ⟨∅, []⟩

/-- Whether no name is declared. -/
def isEmpty (r : Registry) : Bool := r.entries.entries.isEmpty

/-- Record a declaration, its open settings filled. -/
def declare (tree : ViewTree) (r : Registry) (d : Declaration) : Except CompileError Registry :=
  let candidate := SelectionEntry.ofDeclaration d
  match r.entries.get? d.name with
  | none => .ok { r with entries := r.entries.insert d.name candidate }
  | some e =>
    if e.agrees candidate then
      .ok { r with entries := r.entries.insert d.name { e with others := e.others ++ [d.unit] } }
    else do
      let first ← CompileError.ofTree (tree.name e.first)
      .error (.conflictingSelection d.name first d.view)

/-- The names declared in a tree. -/
def collect (tree : ViewTree) (config : SelectionConfig) : Except CompileError Registry :=
  (tree.declarations.map (·.filled config)).foldlM (declare tree) empty

/-- Record a component. -/
def attach (r : Registry) (k : Component) : Registry :=
  { r with components := r.components ++ [k] }

/-- The entry of a name. -/
def entry? (r : Registry) (name : String) : Option SelectionEntry := r.entries.get? name

/-- The components of a view, in order of declaration. -/
def componentsOf (r : Registry) (unit : ViewId) : List Component :=
  r.components.filter fun k => k.unit = unit

/-- The component of a name on a view. -/
def component? (r : Registry) (unit : ViewId) (name : String) : Option Component :=
  (r.componentsOf unit).find? fun k => k.name = name

/-- The component that a name means, seen from a view. -/
def lookup (r : Registry) (tree : ViewTree) (view : ViewId) (name : String) :
    Except ViewTree.Fault (Option Component) :=
  match r.entry? name with
  | none => .ok none
  | some e => do
    let scopes ← tree.ancestors view
    let declaring ← e.declaredIn.mapM fun u => (tree.ancestors u).map fun vs => (u, vs)
    pure (scopes.findSome? fun scope =>
      (declaring.find? fun u => u.2.contains scope).bind fun u => r.component? u.1 name)

end Registry

/-- Collect the selections of a tree and turn them into components; the scales
come back with the bindings entered. -/
def parseSelections (tree : ViewTree) (config : SelectionConfig) (scales : ScaleTable) :
    Diagnosed (ScaleTable × Registry) := do
  let registry ← Diagnosed.ofExcept (Registry.collect tree config)
  let progress := ParseProgress.run tree config scales tree.declarations
  Diagnosed.warn progress.warnings
  match progress.failure with
  | some e => Diagnosed.fail e
  | none => pure (progress.bound scales, progress.components.foldl Registry.attach registry)

end BrushLink
