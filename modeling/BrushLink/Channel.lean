/-!
# Vocabularies and encoding channels

A specification speaks of channels, marks, scale types and the like by name.
A `Vocabulary` is a finite type whose members are written as names; the
channels are the first of them.
-/

namespace BrushLink

/-- A finite type whose members are written as names. -/
class Vocabulary (α : Type) where
  /-- All members, in the order in which they are enumerated to the user. -/
  members : List α
  /-- The name of a member. -/
  nameOf : α → String

/-- The member that a name belongs to. -/
def Vocabulary.find? (α : Type) [Vocabulary α] (name : String) : Option α :=
  (Vocabulary.members : List α).find? fun a => Vocabulary.nameOf a = name

/-- The visual property that a field is encoded on. -/
inductive Channel
  | x | y | x2 | y2 | size | shape | color | fill | stroke | opacity
  | text | tooltip | detail | key | order | href | row | column
  deriving DecidableEq, Repr

namespace Channel

/-- The channels in canonical order. -/
def all : List Channel :=
  [x, y, x2, y2, size, shape, color, fill, stroke, opacity,
   text, tooltip, detail, key, order, href, row, column]

/-- The name of a channel. -/
def name : Channel → String
  | x => "x"
  | y => "y"
  | x2 => "x2"
  | y2 => "y2"
  | size => "size"
  | shape => "shape"
  | color => "color"
  | fill => "fill"
  | stroke => "stroke"
  | opacity => "opacity"
  | text => "text"
  | tooltip => "tooltip"
  | detail => "detail"
  | key => "key"
  | order => "order"
  | href => "href"
  | row => "row"
  | column => "column"

instance : Vocabulary Channel := ⟨all, name⟩

/-- The place of a channel in canonical order. -/
def rank (c : Channel) : Nat := all.idxOf c

/-- A list of channels in canonical order; equal channels stay beside each
other. -/
def sort (cs : List Channel) : List Channel :=
  all.flatMap fun c => cs.filter (· = c)

/-- Whether a field on the channel is drawn through a scale. -/
def hasScale : Channel → Bool
  | x | y | size | shape | color | fill | stroke | opacity => true
  | _ => false

/-- Whether the channel is one of the two positions. -/
def isPositional : Channel → Bool
  | x | y => true
  | _ => false

/-- The other position. -/
def opposite : Channel → Option Channel
  | x => some y
  | y => some x
  | _ => none

/-- The signal that holds the extent of the plot along a position. -/
def extentSignal : Channel → Option String
  | x => some "width"
  | y => some "height"
  | _ => none

/-- A name that no channel has. -/
structure Unknown where
  name : String
  deriving DecidableEq

/-- What the user is told of an unknown channel. -/
def Unknown.message (u : Unknown) : String :=
  "unknown encoding channel '" ++ u.name ++ "'"

/-- The channel of a name. -/
def parse (name : String) : Except Unknown Channel :=
  match Vocabulary.find? Channel name with
  | some c => .ok c
  | none => .error ⟨name⟩

end Channel

end BrushLink
