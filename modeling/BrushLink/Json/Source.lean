import BrushLink.Json.Basic
import BrushLink.Json.Token

/-!
# JSON texts

A `Source` is the syntax of a JSON text: members may be repeated, and numbers
and strings may lack a value.  Which of that is a fault depends on whether the
part is asked for, so it is left to whoever decodes the text.

The tokens are read by a machine with a stack of unfinished containers, one
token at a time.
-/

namespace BrushLink.Json

/-- The syntax of a JSON text. -/
inductive Source
  | null
  | bool (b : Bool)
  /-- A number, or `none` beyond the greatest finite one. -/
  | number (n : Option Number)
  /-- A string, or `none` if half of a surrogate pair stands alone in it. -/
  | string (s : Option String)
  | array (elements : List Source)
  /-- An object, with repeated members as they stand. -/
  | object (members : List (Option String × Source))

/-- A container of which some part has been read, last first. -/
inductive Frame
  | array (done : List Source)
  | object (done : List (Option String × Source)) (key : Option String)

/-- What the reader waits for, and the containers around it, innermost first. -/
inductive Reader
  /-- A value. -/
  | value (stack : List Frame)
  /-- A value or the end of an array. -/
  | arrayStart (stack : List Frame)
  /-- A key or the end of an object. -/
  | objectStart (stack : List Frame)
  /-- A key. -/
  | key (done : List (Option String × Source)) (stack : List Frame)
  /-- A colon. -/
  | colon (done : List (Option String × Source)) (key : Option String) (stack : List Frame)
  /-- What follows a value. -/
  | after (value : Source) (stack : List Frame)

namespace Reader

/-- Take a token that starts a value. -/
def begin? (stack : List Frame) : Token → Option Reader
  | .null => some (.after .null stack)
  | .bool b => some (.after (.bool b) stack)
  | .number n => some (.after (.number n) stack)
  | .string s => some (.after (.string s) stack)
  | .openBracket => some (.arrayStart stack)
  | .openBrace => some (.objectStart stack)
  | _ => none

/-- Take one token. -/
def step : Reader → Token → Option Reader
  | .value stack, t => begin? stack t
  | .arrayStart stack, .closeBracket => some (.after (.array []) stack)
  | .arrayStart stack, t => begin? (.array [] :: stack) t
  | .objectStart stack, .closeBrace => some (.after (.object []) stack)
  | .objectStart stack, .string k => some (.colon [] k stack)
  | .key done stack, .string k => some (.colon done k stack)
  | .colon done k stack, .colon => some (.value (.object done k :: stack))
  | .after v (.array done :: stack), .comma => some (.value (.array (v :: done) :: stack))
  | .after v (.array done :: stack), .closeBracket =>
    some (.after (.array (v :: done).reverse) stack)
  | .after v (.object done k :: stack), .comma => some (.key ((k, v) :: done) stack)
  | .after v (.object done k :: stack), .closeBrace =>
    some (.after (.object ((k, v) :: done).reverse) stack)
  | _, _ => none

/-- The value that has been read, if nothing is left open. -/
def result? : Reader → Option Source
  | .after v [] => some v
  | _ => none

end Reader

namespace Source

/-- The syntax of a text, or `none` if it is not one JSON value. -/
def read? (text : String) : Option Source :=
  (tokens? text.toList).bind fun ts =>
    (ts.foldlM Reader.step (.value [])).bind Reader.result?

mutual

/-- How deep arrays and objects nest. -/
def depth : Source → Nat
  | .array xs => depthElements xs + 1
  | .object ms => depthMembers ms + 1
  | _ => 0

/-- How deep arrays and objects nest in the elements of an array. -/
def depthElements : List Source → Nat
  | [] => 0
  | x :: xs => max (depth x) (depthElements xs)

/-- How deep arrays and objects nest in the members of an object. -/
def depthMembers : List (Option String × Source) → Nat
  | [] => 0
  | (_, x) :: ms => max (depth x) (depthMembers ms)

end

end Source

mutual

/-- A value as syntax. -/
def toSource : Json → Source
  | .null => .null
  | .bool b => .bool b
  | .number n => .number (some n)
  | .string s => .string (some s)
  | .array xs => .array (toSourceElements xs)
  | .object ms => .object (toSourceMembers ms)

/-- The elements of an array as syntax. -/
def toSourceElements : List Json → List Source
  | [] => []
  | x :: xs => toSource x :: toSourceElements xs

/-- The members of an object as syntax. -/
def toSourceMembers : List (String × Json) → List (Option String × Source)
  | [] => []
  | (k, x) :: ms => (some k, toSource x) :: toSourceMembers ms

end

end BrushLink.Json
