import BrushLink.Number.Literal

/-!
# JSON values

The values that a specification carries without a meaning of its own: the
members of an input widget, the entries of a literal domain.  Objects keep the
order of their members, and numbers keep their kind.

Two values are the *same* if they differ at most in the order in which objects,
at any depth, list their members.  Sameness is equality of sorted forms
(`Json.sorted`), hence an equivalence.
-/

namespace BrushLink

/-- A JSON value. -/
inductive Json
  | null
  | bool (b : Bool)
  | number (n : Number)
  | string (s : String)
  | array (elements : List Json)
  | object (members : List (String × Json))

namespace Json

instance : Inhabited Json := ⟨null⟩

mutual

/-- Equality, as a test. -/
def equal : Json → Json → Bool
  | .null, .null => true
  | .bool a, .bool b => a = b
  | .number a, .number b => a = b
  | .string a, .string b => a = b
  | .array xs, .array ys => equalElements xs ys
  | .object xs, .object ys => equalMembers xs ys
  | _, _ => false

/-- Equality of the elements of two arrays, as a test. -/
def equalElements : List Json → List Json → Bool
  | [], [] => true
  | x :: xs, y :: ys => equal x y && equalElements xs ys
  | _, _ => false

/-- Equality of the members of two objects, as a test. -/
def equalMembers : List (String × Json) → List (String × Json) → Bool
  | [], [] => true
  | (k, x) :: xs, (l, y) :: ys => decide (k = l) && equal x y && equalMembers xs ys
  | _, _ => false

end

mutual

theorem equal_iff : ∀ a b : Json, equal a b = true ↔ a = b
  | .null, b => by cases b <;> simp [equal]
  | .bool _, b => by cases b <;> simp [equal]
  | .number _, b => by cases b <;> simp [equal]
  | .string _, b => by cases b <;> simp [equal]
  | .array xs, b => by
    cases b with
    | array ys => simp [equal, equalElements_iff xs ys]
    | _ => simp [equal]
  | .object xs, b => by
    cases b with
    | object ys => simp [equal, equalMembers_iff xs ys]
    | _ => simp [equal]

theorem equalElements_iff : ∀ xs ys : List Json, equalElements xs ys = true ↔ xs = ys
  | [], ys => by cases ys <;> simp [equalElements]
  | x :: xs, ys => by
    cases ys with
    | nil => simp [equalElements]
    | cons y ys => simp [equalElements, equal_iff x y, equalElements_iff xs ys]

theorem equalMembers_iff : ∀ xs ys : List (String × Json), equalMembers xs ys = true ↔ xs = ys
  | [], ys => by cases ys <;> simp [equalMembers]
  | (k, x) :: xs, ys => by
    cases ys with
    | nil => simp [equalMembers]
    | cons y ys =>
      obtain ⟨l, y⟩ := y
      simp [equalMembers, equal_iff x y, equalMembers_iff xs ys, and_assoc]

end

instance : DecidableEq Json := fun a b => decidable_of_iff _ (equal_iff a b)

/-- Put a member before the first one whose name is not smaller. -/
def insertSorted (name : String) (value : Json) : List (String × Json) → List (String × Json)
  | [] => [(name, value)]
  | m :: ms => if m.1 < name then m :: insertSorted name value ms else (name, value) :: m :: ms

mutual

/-- The value with the members of every object sorted by name, and without the
sign of a floating point zero. -/
def sorted : Json → Json
  | .number (.float b) => .number (.float (if b.isZero then Binary.zero false else b))
  | .array xs => .array (sortedElements xs)
  | .object ms => .object (sortedMembers ms)
  | v => v

/-- The sorted forms of the elements of an array. -/
def sortedElements : List Json → List Json
  | [] => []
  | x :: xs => sorted x :: sortedElements xs

/-- The sorted forms of the members of an object, sorted by name. -/
def sortedMembers : List (String × Json) → List (String × Json)
  | [] => []
  | (k, v) :: ms => insertSorted k (sorted v) (sortedMembers ms)

end

/-- Whether two values differ at most in the order of the members of objects
and in the sign of a zero. -/
def same (a b : Json) : Bool := a.sorted = b.sorted

/-- The value of a member of an object. -/
def member? (name : String) : Json → Option Json
  | .object ms => (ms.find? fun m => m.1 = name).map Prod.snd
  | _ => none

end Json

end BrushLink
