import BrushLink.Diagnosis

/-!
# From specification to view tree

Templates are instantiated, references to the repeated field are filled in,
and every view gets a name.  The root is called `root` and the others after
their place among their siblings, below the root with the name of the parent
before it; a name given in the specification wins, except on a repeated
template, whose instances would share it.

Views are created in the order of the walk.  For each view the name is checked
before the arrangement, and the arrangement before the encoding.
-/

namespace BrushLink

/-- Where a view goes: its name, its parent, and the fields that the innermost
repetition around it stands for. -/
structure Place where
  name : String
  parent : Option ViewId
  repeater : Option Repeater
  deriving DecidableEq

namespace Place

/-- The field for which the enclosing template is repeated along an axis. -/
def repeatedField? (p : Place) (axis : Axis) : Option Field :=
  (p.repeater.bind (·.value axis)).map Field.mk

/-- The field that an encoding refers to, if there is one. -/
def field? (p : Place) : FieldSource → Option Field
  | .named f => some f
  | .repeated axis => p.repeatedField? axis

/-- The axis to which an entry of an encoding refers although nothing is repeated
along it. -/
def danglingAxis? (p : Place) : ChannelSpec → Option Axis
  | .list => none
  | .single d =>
    match d.field with
    | some (.repeated axis) => if (p.repeatedField? axis).isNone then some axis else none
    | _ => none

/-- What an entry of an encoding says, with its field settled.  A list of fields
says nothing. -/
def channelDef? (p : Place) : ChannelSpec → Option (ChannelDef Field)
  | .list => none
  | .single d => some { d with field := d.field.bind p.field? }

/-- The unit view at a place.  The first reference that cannot be settled is
reported. -/
def unitView (p : Place) (head : ViewHead) (mark : Mark) : Except CompileError UnitView :=
  match head.encoding.values.findSome? p.danglingAxis? with
  | some axis => .error (.unresolvedRepeat p.name axis)
  | none =>
    .ok ⟨mark, head.encoding.filterMap fun _ => p.channelDef?, head.selections, p.repeater⟩

/-- The name of a child: the one that is given, else one made from its label. -/
def childName (parent : ViewId) (parentName : String) (given : Option String)
    (label : String) : String :=
  match given with
  | some name => name
  | none => if parent = ViewTree.root then label else parentName ++ "_" ++ label

end Place

namespace ViewTree

/-- Add a view at a place. -/
def addAt (t : ViewTree) (p : Place) (content : ViewContent) : Except CompileError ViewTree :=
  CompileError.ofTree (t.add p.name p.parent content)

/-- Refuse a name that a view has already. -/
def checkName (t : ViewTree) (name : String) : Except CompileError Unit :=
  match t.find? name with
  | some _ => .error (.duplicateView name)
  | none => .ok ()

mutual

/-- Add a view and all that lies beneath it. -/
def expand (t : ViewTree) (p : Place) : ViewSpec → Except CompileError ViewTree
  | .malformed _ fault => do
    t.checkName p.name
    .error (.malformedView p.name fault)
  | .unit head mark => do
    t.checkName p.name
    let u ← p.unitView head mark
    t.addAt p (.unit u)
  | .layered head children => do
    t.checkName p.name
    let t' ← t.addAt p (.composite ⟨.layer, head.resolve⟩)
    expandAll t' t.size p "layer_" 0 children
  | .concatenated head children => do
    t.checkName p.name
    let t' ← t.addAt p (.composite ⟨.concat, head.resolve⟩)
    expandAll t' t.size p "concat_" 0 children
  | .repeated head axes template => do
    t.checkName p.name
    let t' ← t.addAt p (.composite ⟨.repetition, head.resolve⟩)
    axes.instances.foldlM
      (fun t'' i =>
        expand t'' ⟨Place.childName t.size p.name none i.label, some t.size, some i.repeater⟩
          template)
      t'
  | .faceted head template => do
    t.checkName p.name
    let t' ← t.addAt p (.composite ⟨.facet, head.resolve⟩)
    expand t' ⟨Place.childName t.size p.name template.head.name "child", some t.size, p.repeater⟩
      template

/-- Add the children of a view that was added at `parent`.  A child is labelled
by a word and its index. -/
def expandAll (t : ViewTree) (parent : ViewId) (p : Place) (word : String) (index : Nat) :
    List ViewSpec → Except CompileError ViewTree
  | [] => .ok t
  | c :: cs => do
    let t' ← expand t
      ⟨Place.childName parent p.name c.head.name (word ++ index.repr), some parent, p.repeater⟩ c
    expandAll t' parent p word (index + 1) cs

end

/-- The view tree of a specification. -/
def ofSpec (spec : ViewSpec) : Except CompileError ViewTree :=
  empty.expand ⟨spec.head.name.getD "root", none, none⟩ spec

end ViewTree

end BrushLink
