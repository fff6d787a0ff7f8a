import BrushLink.Channel
import BrushLink.Field
import BrushLink.Json.Basic

/-!
# Types and domains of scales

Which scale a field gets when the specification names none follows from the
channel, the type of the field, whether it is binned, and the mark.  A scale takes
its domain from the data, from a list of values, or from what a selection currently
holds.
-/

namespace BrushLink

/-- The graphical mark that a unit view draws. -/
inductive Mark
  | area | bar | circle | geoshape | line | point | rect | rule | square | text | tick | trail
  deriving DecidableEq, Repr

namespace Mark

/-- The name of a mark. -/
def name : Mark → String
  | area => "area"
  | bar => "bar"
  | circle => "circle"
  | geoshape => "geoshape"
  | line => "line"
  | point => "point"
  | rect => "rect"
  | rule => "rule"
  | square => "square"
  | text => "text"
  | tick => "tick"
  | trail => "trail"

instance : Vocabulary Mark :=
  ⟨[area, bar, circle, geoshape, line, point, rect, rule, square, text, tick, trail], name⟩

instance : Inhabited Mark := ⟨point⟩

end Mark

/-- The level of measurement of a field. -/
inductive FieldType
  | quantitative | temporal | ordinal | nominal
  deriving DecidableEq, Repr

namespace FieldType

/-- The name of a field type. -/
def name : FieldType → String
  | quantitative => "quantitative"
  | temporal => "temporal"
  | ordinal => "ordinal"
  | nominal => "nominal"

instance : Vocabulary FieldType := ⟨[quantitative, temporal, ordinal, nominal], name⟩

instance : Inhabited FieldType := ⟨nominal⟩

end FieldType

/-- The kind of function that a scale is. -/
inductive ScaleType
  | linear | log | pow | sqrt | time | utc | sequential | quantile | quantize | threshold
  | binLinear | binOrdinal | ordinal | band | point
  deriving DecidableEq, Repr

namespace ScaleType

/-- The name of a scale type. -/
def name : ScaleType → String
  | linear => "linear"
  | log => "log"
  | pow => "pow"
  | sqrt => "sqrt"
  | time => "time"
  | utc => "utc"
  | sequential => "sequential"
  | quantile => "quantile"
  | quantize => "quantize"
  | threshold => "threshold"
  | binLinear => "bin-linear"
  | binOrdinal => "bin-ordinal"
  | ordinal => "ordinal"
  | band => "band"
  | point => "point"

instance : Vocabulary ScaleType :=
  ⟨[linear, log, pow, sqrt, time, utc, sequential, quantile, quantize, threshold,
    binLinear, binOrdinal, ordinal, band, point], name⟩

/-- Whether the domain is an interval. -/
def isContinuous : ScaleType → Bool
  | binOrdinal | ordinal | band | point => false
  | _ => true

/-- Whether the domain is cut into bins. -/
def isBinned : ScaleType → Bool
  | binLinear | binOrdinal => true
  | _ => false

/-- Whether a selection can drive the domain: it must be an interval that is not
cut into bins. -/
def canBeDriven (t : ScaleType) : Bool := t.isContinuous && !t.isBinned

/-- The type of a scale for which the specification names none. -/
def default (channel : Channel) (type : FieldType) (mark : Mark) (binned : Bool) : ScaleType :=
  match type with
  | .quantitative => if binned && !channel.isPositional then binOrdinal else linear
  | .temporal => time
  | .ordinal | .nominal =>
    if channel.isPositional then
      match mark with
      | .bar | .rect => band
      | _ => point
    else ordinal

end ScaleType

/-- A domain that follows a selection.  The field, if one is given, says which
part of the selection; else the channel does. -/
structure SelectionDomain where
  selection : String
  field : Option Field
  encoding : Option Channel
  deriving DecidableEq

/-- The declared domain of a scale. -/
inductive ScaleDomain
  | data
  | literal (values : List Json)
  | selection (domain : SelectionDomain)
  deriving DecidableEq

/-- Whether the domain comes from the data. -/
def ScaleDomain.isData : ScaleDomain → Bool
  | .data => true
  | _ => false

/-- Whether the children of a view share one scale for a channel. -/
inductive ResolveMode
  | shared | independent
  deriving DecidableEq, Repr

namespace ResolveMode

/-- The name of a mode. -/
def name : ResolveMode → String
  | shared => "shared"
  | independent => "independent"

instance : Vocabulary ResolveMode := ⟨[shared, independent], name⟩

end ResolveMode

end BrushLink
