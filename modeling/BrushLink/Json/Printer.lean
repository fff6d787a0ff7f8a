import BrushLink.Json.Basic
import BrushLink.Number.Shortest
import BrushLink.Text.Quoted

/-!
# The text of a JSON value

Two forms: the compact one without any blank, and the indented one, with one
member or element a line, two blanks for each level and empty containers
closed at once.
-/

namespace BrushLink.Json

mutual

/-- The compact text of a value. -/
def chars : Json → List Char
  | .null => ['n', 'u', 'l', 'l']
  | .bool true => ['t', 'r', 'u', 'e']
  | .bool false => ['f', 'a', 'l', 's', 'e']
  | .number n => n.toChars
  | .string s => Text.quoteChars s.toList
  | .array [] => ['[', ']']
  | .array (x :: xs) => '[' :: (chars x ++ charsElements xs)
  | .object [] => ['\x7b', '\x7d']
  | .object ((k, v) :: ms) =>
    '\x7b' :: (Text.quoteChars k.toList ++ ':' :: (chars v ++ charsMembers ms))

/-- The elements after the first, and the closing bracket. -/
def charsElements : List Json → List Char
  | [] => [']']
  | x :: xs => ',' :: (chars x ++ charsElements xs)

/-- The members after the first, and the closing brace. -/
def charsMembers : List (String × Json) → List Char
  | [] => ['\x7d']
  | (k, v) :: ms =>
    ',' :: (Text.quoteChars k.toList ++ ':' :: (chars v ++ charsMembers ms))

end

/-- The compact text of a value. -/
def compact (v : Json) : String := String.ofList v.chars

/-- A new line, indented by a number of levels. -/
def newLine (level : Nat) : List Char := '\n' :: List.replicate (2 * level) ' '

mutual

/-- The indented text of a value that stands at a level. -/
def indentedChars (level : Nat) : Json → List Char
  | .array (x :: xs) =>
    '[' :: (newLine (level + 1) ++ (indentedChars (level + 1) x ++ indentedElements level xs))
  | .object ((k, v) :: ms) =>
    '\x7b' :: (newLine (level + 1) ++ (Text.quoteChars k.toList ++
      ':' :: ' ' :: (indentedChars (level + 1) v ++ indentedMembers level ms)))
  | v => chars v

/-- The elements after the first, and the closing bracket. -/
def indentedElements (level : Nat) : List Json → List Char
  | [] => newLine level ++ [']']
  | x :: xs =>
    ',' :: (newLine (level + 1) ++ (indentedChars (level + 1) x ++ indentedElements level xs))

/-- The members after the first, and the closing brace. -/
def indentedMembers (level : Nat) : List (String × Json) → List Char
  | [] => newLine level ++ ['\x7d']
  | (k, v) :: ms =>
    ',' :: (newLine (level + 1) ++ (Text.quoteChars k.toList ++
      ':' :: ' ' :: (indentedChars (level + 1) v ++ indentedMembers level ms)))

end

/-- The indented text of a value. -/
def indented (v : Json) : String := String.ofList (v.indentedChars 0)

end BrushLink.Json
