import BrushLink.Text.Quoted

/-!
# Data fields

A field is named by the text that the specification gives, and that text is
kept wherever the field names something.  Only access to a datum looks inside:
a dot separates the segments of a nested property, and a backslash before a
dot makes the dot part of the segment.
-/

namespace BrushLink

/-- A data field, named as declared. -/
structure Field where
  name : String
  deriving DecidableEq, Repr

/-- Put a character before the first of several segments. -/
def consFirst (c : Char) : List (List Char) → List (List Char)
  | [] => [[c]]
  | s :: ss => (c :: s) :: ss

/-- Split at the dots that no backslash stands before. -/
def splitSegments : List Char → List (List Char)
  | [] => [[]]
  | '\\' :: '.' :: cs => consFirst '.' (splitSegments cs)
  | '.' :: cs => [] :: splitSegments cs
  | c :: cs => consFirst c (splitSegments cs)

/-- The successively longer accesses `base[s₁]`, `base[s₁][s₂]`, … -/
def accesses (base : String) : List String → List String
  | [] => []
  | s :: ss =>
    let longer := base ++ "[" ++ Text.quote s ++ "]"
    longer :: accesses longer ss

namespace Field

/-- The segments of the property that the field addresses. -/
def segments (f : Field) : List String :=
  (splitSegments f.name.toList).map String.ofList

/-- Whether the field addresses a property of a property. -/
def isNested (f : Field) : Bool := 1 < f.segments.length

/-- The expression that reads the field of `datum`.  Each object on the way is
tested before it is indexed. -/
def access (f : Field) (datum : String) : String :=
  " && ".intercalate (accesses datum f.segments)

end Field

end BrushLink
