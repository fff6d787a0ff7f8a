import BrushLink.Channel
import BrushLink.Json.Printer
import BrushLink.Json.Source
import BrushLink.Table
import BrushLink.Text.Character

/-!
# Decoding JSON

How the parts of a JSON text or value become data of a known shape, and what is
said when they cannot.

Every decoder takes a limit: the number of arrays and objects that may still
nest.  A text is decoded with a fixed limit, a value with its own depth, so
that the limit never stops it.

* A *record* is an object with known members.  Unknown members are passed over
  unseen, whatever they hold.  A record may also be written as an array of its
  members in order.
* A *name* is a string, or an object whose only member has that name and the
  value null.
* *Alternatives* are tried in order on a part that has been checked as a whole;
  if none fits, only that is reported.
-/

namespace BrushLink

/-- What stands where something else was expected. -/
inductive Found
  | null
  | bool (b : Bool)
  | number (n : Option Number)
  | string (s : Option String)
  | sequence
  | map
  deriving DecidableEq

/-- What was expected. -/
inductive Expected
  | record (title : String)
  | string
  | sequence
  | map
  | name
  | unit
  deriving DecidableEq

/-- Why a part of a JSON text or value cannot be decoded. -/
inductive DecodeError
  | wrongType (found : Found) (expected : Expected)
  /-- A name was given as an object with no or several members. -/
  | notOneKey
  | unknownName (name : String) (known : List String)
  | missingMember (name : String)
  /-- A record was given as an array that is too long. -/
  | tooManyElements (count : Nat)
  /-- A record was given as an array that is too short. -/
  | tooFewElements (count : Nat) (title : String) (needed : Nat)
  | noAlternative (title : String)
  /-- The text is not JSON. -/
  | notJson
  | repeatedMember (name : String)
  | tooDeep
  | numberOutOfRange
  | loneSurrogate
  deriving DecidableEq

namespace Found

/-- How the user is told what stands there. -/
def describe : Found → String
  | null => "null"
  | bool b => "boolean `" ++ (if b then "true" else "false") ++ "`"
  | number (some (.integer n)) =>
    "integer `" ++ String.ofList (Number.toChars (.integer n)) ++ "`"
  | number (some (.float b)) => "floating point `" ++ String.ofList b.toChars ++ "`"
  | number none => "number"
  | string (some s) => "string " ++ Text.shown s
  | string none => "string"
  | sequence => "sequence"
  | map => "map"

end Found

namespace Expected

/-- How the user is told what was expected. -/
def describe : Expected → String
  | record title => "struct " ++ title
  | string => "a string"
  | sequence => "a sequence"
  | map => "a map"
  | name => "string or map"
  | unit => "unit"

end Expected

namespace DecodeError

/-- A name between backquotes. -/
def backquoted (s : String) : String := "`" ++ s ++ "`"

/-- The names that would have been known. -/
def enumerate : List String → String
  | [] => "there are no variants"
  | [a] => "expected " ++ backquoted a
  | [a, b] => "expected " ++ backquoted a ++ " or " ++ backquoted b
  | names => "expected one of " ++ ", ".intercalate (names.map backquoted)

/-- What the user is told. -/
def message : DecodeError → String
  | wrongType found expected =>
    "invalid type: " ++ found.describe ++ ", expected " ++ expected.describe
  | notOneKey => "invalid value: map, expected map with a single key"
  | unknownName name known => "unknown variant " ++ backquoted name ++ ", " ++ enumerate known
  | missingMember name => "missing field " ++ backquoted name
  | tooManyElements count =>
    "invalid length " ++ count.repr ++ ", expected fewer elements in array"
  | tooFewElements count title needed =>
    "invalid length " ++ count.repr ++ ", expected struct " ++ title ++ " with " ++ needed.repr ++
      " elements"
  | noAlternative title => "data did not match any variant of untagged enum " ++ title
  | notJson => "not a JSON text"
  | repeatedMember name => "duplicate field " ++ backquoted name
  | tooDeep => "recursion limit exceeded"
  | numberOutOfRange => "number out of range"
  | loneSurrogate => "lone surrogate in a string"

end DecodeError

namespace Json.Source

/-- What stands here, for a message. -/
def found : Source → Found
  | .null => .null
  | .bool b => .bool b
  | .number n => .number n
  | .string s => .string s
  | .array _ => .sequence
  | .object _ => .map

/-- Refuse this part. -/
def refuse {α : Type} (v : Source) (expected : Expected) : Except DecodeError α :=
  .error (.wrongType v.found expected)

/-- A string with a value. -/
def known (s : Option String) : Except DecodeError String :=
  match s with
  | some s => .ok s
  | none => .error .loneSurrogate

/-- One level of nesting less. -/
def deeper (limit : Nat) : Except DecodeError Nat :=
  match limit with
  | 0 => .error .tooDeep
  | n + 1 => .ok n

mutual

/-- The value of a part all of which is asked for.  A repeated member keeps its
first place and takes its last value. -/
def value (limit : Nat) : Source → Except DecodeError Json
  | .null => .ok .null
  | .bool b => .ok (.bool b)
  | .number (some n) => .ok (.number n)
  | .number none => .error .numberOutOfRange
  | .string (some s) => .ok (.string s)
  | .string none => .error .loneSurrogate
  | .array xs => do
    let limit ← deeper limit
    let xs ← valueElements limit xs
    pure (.array xs)
  | .object ms => do
    let limit ← deeper limit
    let ms ← valueMembers limit [] ms
    pure (.object ms)

/-- The values of the elements of an array. -/
def valueElements (limit : Nat) : List Source → Except DecodeError (List Json)
  | [] => .ok []
  | x :: xs => do
    let x ← value limit x
    let xs ← valueElements limit xs
    pure (x :: xs)

/-- The values of the members of an object, after those that are done. -/
def valueMembers (limit : Nat) (done : List (String × Json)) :
    List (Option String × Source) → Except DecodeError (List (String × Json))
  | [] => .ok done
  | (k, x) :: ms => do
    let k ← known k
    let x ← value limit x
    valueMembers limit (placeEntry k x done) ms

end

/-- A string. -/
def asString (v : Source) : Except DecodeError String :=
  match v with
  | .string s => known s
  | v => v.refuse .string

/-- A part that may be absent, which null also says. -/
def asOption {α : Type} (decode : Source → Except DecodeError α) (v : Source) :
    Except DecodeError (Option α) :=
  match v with
  | .null => .ok none
  | v => some <$> decode v

/-- The elements of an array. -/
def asList {α : Type} (decode : Nat → Source → Except DecodeError α) (limit : Nat) (v : Source) :
    Except DecodeError (List α) :=
  match v with
  | .array xs => do
    let limit ← deeper limit
    xs.mapM (decode limit)
  | v => v.refuse .sequence

/-- A member of a vocabulary, by its name. -/
def named {α : Type} [Vocabulary α] (name : String) : Except DecodeError α :=
  match Vocabulary.find? α name with
  | some a => .ok a
  | none =>
    .error (.unknownName name ((Vocabulary.members : List α).map Vocabulary.nameOf))

/-- A name. -/
def asName {α : Type} [Vocabulary α] (limit : Nat) (v : Source) : Except DecodeError α :=
  match v with
  | .string s => known s >>= named
  | .object ms => do
    let _ ← deeper limit
    match ms with
    | [(k, v)] =>
      let a ← known k >>= named
      match v with
      | .null => pure a
      | v => v.refuse .unit
    | _ => .error .notOneKey
  | v => v.refuse .name

/-- A map.  Keys are decoded before their values, and a repeated key keeps its
first place and takes its last value. -/
def asTable {κ α : Type} [DecidableEq κ] (key : String → Except DecodeError κ)
    (decode : Nat → Source → Except DecodeError α) (limit : Nat) (v : Source) :
    Except DecodeError (Table κ α) :=
  match v with
  | .object ms => do
    let limit ← deeper limit
    ms.foldlM
      (fun t m => do
        let k ← known m.1 >>= key
        let a ← decode limit m.2
        pure (t.insert k a))
      ∅
  | v => v.refuse .map

/-- The first alternative that fits a part that has been checked as a whole. -/
def alternatives {α : Type} (title : String) (limit : Nat)
    (choices : List (Nat → Source → Except DecodeError α)) (v : Source) :
    Except DecodeError α := do
  let _ ← v.value limit
  match choices.findSome? fun choice => (choice limit v).toOption with
  | some a => pure a
  | none => .error (.noAlternative title)

end Json.Source

/-- A record: an object with known members, or an array of them in order. -/
structure Record (α : Type) where
  /-- The name by which messages call it. -/
  title : String
  /-- The known members, in order. -/
  members : List String
  /-- The record before any member is read. -/
  start : α
  /-- Read a known member. -/
  read : Nat → α → String → Json.Source → Except DecodeError α

namespace Record

variable {α : Type}

/-- Read the members of an object.  A known member must not be repeated. -/
def readMembers (r : Record α) (limit : Nat) (seen : List String) (a : α) :
    List (Option String × Json.Source) → Except DecodeError α
  | [] => .ok a
  | (k, v) :: ms => do
    let k ← Json.Source.known k
    if r.members.contains k then
      if seen.contains k then .error (.repeatedMember k)
      else
        let a ← r.read limit a k v
        readMembers r limit (k :: seen) a ms
    else readMembers r limit seen a ms

/-- Read the elements of an array as the members that are left. -/
def readElements (r : Record α) (limit : Nat) (count : Nat) (a : α) :
    List String → List Json.Source → Except DecodeError α
  | _, [] => .ok a
  | [], _ :: _ => .error (.tooManyElements count)
  | k :: ks, v :: vs => do
    let a ← r.read limit a k v
    readElements r limit count a ks vs

/-- Decode a record. -/
def decode (r : Record α) (limit : Nat) (v : Json.Source) : Except DecodeError α :=
  match v with
  | .object ms => do
    let limit ← Json.Source.deeper limit
    r.readMembers limit [] r.start ms
  | .array vs => do
    let limit ← Json.Source.deeper limit
    r.readElements limit vs.length r.start r.members vs
  | v => v.refuse (.record r.title)

/-- What is wrong with a part that lacks the first member: an array that has no
element, or an object without the member. -/
def lacks (r : Record α) (v : Json.Source) (member : String) : DecodeError :=
  match v with
  | .array _ => .tooFewElements 0 r.title r.members.length
  | _ => .missingMember member

/-- Decode a record from an object only. -/
def decodeObject (r : Record α) (limit : Nat) (v : Json.Source) : Except DecodeError α :=
  match v with
  | .object _ => r.decode limit v
  | v => v.refuse .map

end Record

/-- The nesting that a text may have. -/
def textLimit : Nat := 127

/-- Decode a text. -/
def decodeText {α : Type} (decode : Nat → Json.Source → Except DecodeError α) (text : String) :
    Except DecodeError α :=
  match Json.Source.read? text with
  | some v => decode textLimit v
  | none => .error .notJson

/-- Decode a value. -/
def decodeValue {α : Type} (decode : Nat → Json.Source → Except DecodeError α) (v : Json) :
    Except DecodeError α :=
  decode v.toSource.depth v.toSource

/-- The value of a text. -/
def Json.parse (text : String) : Except DecodeError Json :=
  decodeText Json.Source.value text

end BrushLink
