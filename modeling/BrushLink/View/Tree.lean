import BrushLink.View.Spec

/-!
# View trees

The views of a specification, after all templates are instantiated, form a
tree.  A `ViewTree` lists them in the order of their creation; a view is known
by its place in that list, and each view but the first names a parent that was
there before it.  Child lists, the walk and the ancestors of a view are read
off the parents.

Asking for a view that is not in the tree is a `Fault`, and so is adding a
second root or a child of an unknown view.
-/

namespace BrushLink

/-- A view, known by its place in the order of creation.  Trees have fewer than 2^32
views, so that 32 bits hold every place. -/
abbrev ViewId := Nat

/-- How an inner view arranges its children. -/
inductive CompositeKind
  | layer | concat | repetition | facet
  deriving DecidableEq, Repr

namespace CompositeKind

/-- The name of an arrangement. -/
def name : CompositeKind → String
  | layer => "layer"
  | concat => "concat"
  | repetition => "repeat"
  | facet => "facet"

/-- All arrangements. -/
def all : List CompositeKind := [layer, concat, repetition, facet]

/-- Whether children share a scale where the specification does not say. -/
def defaultMode (k : CompositeKind) (c : Channel) : ResolveMode :=
  match k with
  | layer | facet => .shared
  | concat | repetition => if c.isPositional then .independent else .shared

end CompositeKind

/-- An inner view. -/
structure CompositeView where
  kind : CompositeKind
  /-- Which scales the children share, where the specification says so. -/
  resolve : Table Channel ResolveMode
  deriving DecidableEq

/-- Whether the children share the scale of a channel. -/
def CompositeView.mode (v : CompositeView) (c : Channel) : ResolveMode :=
  (v.resolve.get? c).getD (v.kind.defaultMode c)

/-- A view that draws one mark. -/
structure UnitView where
  mark : Mark
  encoding : Table Channel (ChannelDef Field)
  selections : Table String SelectionDef
  /-- The fields that the view stands for, inside a repeated template. -/
  repeater : Option Repeater
  deriving DecidableEq

namespace UnitView

instance : Inhabited UnitView := ⟨⟨default, ∅, ∅, none⟩⟩

/-- The field on a channel. -/
def field? (u : UnitView) (c : Channel) : Option Field :=
  (u.encoding.get? c).bind ChannelDef.field

/-- The channels with a field, and their fields, as declared. -/
def fields (u : UnitView) : List (Channel × Field) :=
  u.encoding.entries.filterMap fun e => e.2.field.map fun f => (e.1, f)

/-- Whether rows and columns of the enclosing repetition agree on this view. -/
def isDiagonal (u : UnitView) : Bool := u.repeater.any Repeater.isDiagonal

end UnitView

/-- What a view is: a leaf with a mark, or an arrangement. -/
inductive ViewContent
  | unit (view : UnitView)
  | composite (view : CompositeView)
  deriving DecidableEq

namespace ViewContent

/-- The unit view, if it is one. -/
def unit? : ViewContent → Option UnitView
  | unit u => some u
  | composite _ => none

/-- The inner view, if it is one. -/
def composite? : ViewContent → Option CompositeView
  | unit _ => none
  | composite c => some c

/-- The name of the kind of view. -/
def kindName : ViewContent → String
  | unit _ => "unit"
  | composite c => c.kind.name

end ViewContent

/-- A view of a tree. -/
structure ViewNode where
  name : String
  parent : Option ViewId
  content : ViewContent
  deriving DecidableEq

/-- A tree of views, in the order of their creation. -/
structure ViewTree where
  nodes : List ViewNode
  deriving DecidableEq

/-- A view with all that lies beneath it. -/
inductive Branch
  | mk (id : ViewId) (node : ViewNode) (children : List Branch)

namespace Branch

/-- The view at the top. -/
def id : Branch → ViewId
  | mk id _ _ => id

/-- What the view at the top is. -/
def node : Branch → ViewNode
  | mk _ node _ => node

mutual

/-- The views of a branch, each before its children. -/
def flatten : Branch → List (ViewId × ViewNode)
  | mk id node children => (id, node) :: flattenAll children

/-- The views of several branches, one branch after the other. -/
def flattenAll : List Branch → List (ViewId × ViewNode)
  | [] => []
  | b :: bs => flatten b ++ flattenAll bs

end

end Branch

namespace ViewTree

/-- Why a tree refuses. -/
inductive Fault
  | unknownView (id : ViewId)
  | secondRoot
  deriving DecidableEq, Repr

/-- The tree without views. -/
def empty : ViewTree := ⟨[]⟩

/-- How many views the tree has. -/
def size (t : ViewTree) : Nat := t.nodes.length

/-- The place of the root, if there are any views. -/
def root : ViewId := 0

/-- A view of the tree. -/
def get? (t : ViewTree) (v : ViewId) : Option ViewNode := t.nodes[v]?

/-- A view that is expected to be in the tree. -/
def node (t : ViewTree) (v : ViewId) : Except Fault ViewNode :=
  match t.get? v with
  | some n => .ok n
  | none => .error (.unknownView v)

/-- The name of a view that is expected to be in the tree. -/
def name (t : ViewTree) (v : ViewId) : Except Fault String := (t.node v).map ViewNode.name

/-- The parent of a view that is expected to be in the tree. -/
def parent (t : ViewTree) (v : ViewId) : Except Fault (Option ViewId) :=
  (t.node v).map ViewNode.parent

/-- The unit view at a place, if there is one. -/
def unit? (t : ViewTree) (v : ViewId) : Option UnitView :=
  (t.get? v).bind fun n => n.content.unit?

/-- The first view of a name. -/
def find? (t : ViewTree) (name : String) : Option ViewId :=
  t.nodes.findIdx? fun n => n.name = name

/-- Add a view under a parent, or as the root.  The new view is the last. -/
def add (t : ViewTree) (name : String) (parent : Option ViewId) (content : ViewContent) :
    Except Fault ViewTree :=
  match parent with
  | some p =>
    if p < t.size then .ok ⟨t.nodes ++ [⟨name, parent, content⟩]⟩
    else .error (.unknownView p)
  | none =>
    if t.size = 0 then .ok ⟨[⟨name, none, content⟩]⟩
    else .error .secondRoot

/-- The children of a view, as declared. -/
def childNodes (t : ViewTree) (v : ViewId) : List (ViewId × ViewNode) :=
  (t.nodes.mapIdx fun i n => (i, n)).filter fun c => c.2.parent = some v

/-- The children of a view that is expected to be in the tree. -/
def children (t : ViewTree) (v : ViewId) : Except Fault (List ViewId) :=
  (t.node v).map fun _ => (t.childNodes v).map Prod.fst

/-- The view with what lies beneath it, down to a number of levels. -/
def branch (t : ViewTree) : Nat → ViewId → ViewNode → Branch
  | 0, v, n => .mk v n []
  | levels + 1, v, n =>
    .mk v n ((t.childNodes v).map fun c => t.branch levels c.1 c.2)

/-- The whole tree as one branch, if there are any views. -/
def trunk? (t : ViewTree) : Option Branch :=
  t.nodes.head?.map fun n => t.branch t.size root n

/-- All views, each before its children. -/
def preorder (t : ViewTree) : List (ViewId × ViewNode) :=
  match t.trunk? with
  | some b => b.flatten
  | none => []

/-- The unit views, as the walk meets them. -/
def units (t : ViewTree) : List (ViewId × String × UnitView) :=
  t.preorder.filterMap fun v => v.2.content.unit?.map fun u => (v.1, v.2.name, u)

/-- A view followed by its parent and so on, for a number of steps. -/
def climb (t : ViewTree) : Nat → ViewId → List ViewId
  | 0, _ => []
  | steps + 1, v =>
    match (t.get? v).bind ViewNode.parent with
    | some p => v :: t.climb steps p
    | none => [v]

/-- A view that is expected to be in the tree, and its ancestors up to the
root. -/
def ancestors (t : ViewTree) (v : ViewId) : Except Fault (List ViewId) :=
  (t.node v).map fun _ => t.climb t.size v

/-- Whether a view lies beneath another or is that view. -/
def isWithin (t : ViewTree) (v ancestor : ViewId) : Except Fault Bool :=
  (t.ancestors v).map fun vs => vs.contains ancestor

end ViewTree

end BrushLink
