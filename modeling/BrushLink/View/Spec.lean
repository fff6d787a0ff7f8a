import BrushLink.Scale.Type
import BrushLink.Selection.Declaration
import BrushLink.Table

/-!
# View specifications

A specification describes a view either as one mark or as an arrangement of
further views: layers on top of each other, views side by side, a template
repeated for the fields of a list, or a template repeated for the values of a
field.  A view that is none of these, or several at once, is kept with the
reason why it cannot be drawn: the fault is reported only once the view is
reached.
-/

namespace BrushLink

/-- The axis along which a template is repeated. -/
inductive Axis
  | row | column
  deriving DecidableEq, Repr

namespace Axis

/-- The name of an axis. -/
def name : Axis → String
  | row => "row"
  | column => "column"

instance : Vocabulary Axis := ⟨[row, column], name⟩

end Axis

/-- The field of an encoding: named, or the one for which the enclosing template
is repeated. -/
inductive FieldSource
  | named (field : Field)
  | repeated (axis : Axis)
  deriving DecidableEq

/-- What a channel encodes.  Fields are of type `φ`: to be looked up in a
specification, settled in a tree. -/
structure ChannelDef (φ : Type) where
  field : Option φ
  type : FieldType
  binned : Bool
  /-- The scale type, if the specification names one. -/
  scaleType : Option ScaleType
  domain : ScaleDomain
  deriving DecidableEq

/-- An entry of an encoding.  A channel with a list of fields has no scale and
takes no part in what follows. -/
inductive ChannelSpec
  | list
  | single (channelDef : ChannelDef FieldSource)
  deriving DecidableEq

/-- The fields for which a template is repeated, along one axis or both. -/
inductive RepeatAxes
  | rows (rows : List String)
  | columns (columns : List String)
  | grid (rows columns : List String)
  deriving DecidableEq

/-- The fields that a repeated instance stands for. -/
structure Repeater where
  row : Option String
  column : Option String
  deriving DecidableEq, Repr

namespace Repeater

/-- The field along an axis. -/
def value (r : Repeater) : Axis → Option String
  | .row => r.row
  | .column => r.column

/-- Whether rows and columns repeat the same field here. -/
def isDiagonal (r : Repeater) : Bool := r.row.isSome && r.row = r.column

end Repeater

/-- One instance of a repeated template. -/
structure RepeatInstance where
  /-- The name of the instance among its siblings. -/
  label : String
  repeater : Repeater
  deriving DecidableEq

namespace RepeatAxes

/-- The instances, row by row. -/
def instances : RepeatAxes → List RepeatInstance
  | rows rs => rs.mapIdx fun i r => ⟨"repeat_row_" ++ i.repr, ⟨some r, none⟩⟩
  | columns cs => cs.mapIdx fun j c => ⟨"repeat_column_" ++ j.repr, ⟨none, some c⟩⟩
  | grid rs cs =>
    (rs.mapIdx fun i r => cs.mapIdx fun j c =>
      ⟨"repeat_row_" ++ i.repr ++ "_column_" ++ j.repr, ⟨some r, some c⟩⟩).flatten

end RepeatAxes

/-- Why a view cannot be drawn. -/
inductive Malformation
  | repeatWithoutAxes
  | repeatWithoutTemplate
  | facetWithoutTemplate
  /-- The number of arrangements, where one is needed. -/
  | arrangements (found : Nat)
  deriving DecidableEq, Repr

/-- What the user is told of a malformed view. -/
def Malformation.reason : Malformation → String
  | repeatWithoutAxes => "repeat needs a row or column list"
  | repeatWithoutTemplate => "repeat without a spec"
  | facetWithoutTemplate => "facet without a spec"
  | arrangements found =>
    "expected exactly one of mark, layer, concat, repeat or facet, found " ++ found.repr

/-- What a view says apart from its arrangement. -/
structure ViewHead where
  name : Option String
  encoding : Table Channel ChannelSpec
  selections : Table String SelectionDef
  /-- Which scales the children share, where the specification says so. -/
  resolve : Table Channel ResolveMode
  /-- Read on the outermost view only. -/
  config : SelectionConfig
  deriving DecidableEq

instance : Inhabited ViewHead := ⟨⟨none, ∅, ∅, ∅, .none⟩⟩

/-- A view specification. -/
inductive ViewSpec
  | unit (head : ViewHead) (mark : Mark)
  | layered (head : ViewHead) (children : List ViewSpec)
  | concatenated (head : ViewHead) (children : List ViewSpec)
  | repeated (head : ViewHead) (axes : RepeatAxes) (template : ViewSpec)
  | faceted (head : ViewHead) (template : ViewSpec)
  | malformed (head : ViewHead) (fault : Malformation)

/-- What the view says apart from its arrangement. -/
def ViewSpec.head : ViewSpec → ViewHead
  | unit h _ | layered h _ | concatenated h _ | repeated h _ _ | faceted h _ | malformed h _ => h

end BrushLink
