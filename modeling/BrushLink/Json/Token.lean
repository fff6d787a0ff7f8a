import BrushLink.Number.Literal
import BrushLink.Text.Quoted

/-!
# The tokens of a JSON text

A text is read character by character by a small machine.  Between tokens it
skips blanks; a number and a word end before the first character that cannot
belong to them; a string ends at the first quote that no backslash stands
before.

A literal beyond the range of numbers and a string with half of a surrogate
pair are tokens, but tokens without a value: they are harmless where nobody
asks for what they say.
-/

namespace BrushLink.Json

/-- A token of a JSON text. -/
inductive Token
  | openBracket
  | closeBracket
  | openBrace
  | closeBrace
  | comma
  | colon
  | null
  | bool (b : Bool)
  /-- A number, or `none` beyond the greatest finite one. -/
  | number (n : Option Number)
  /-- A string, or `none` if half of a surrogate pair stands alone in it. -/
  | string (s : Option String)
  deriving DecidableEq

namespace Token

/-- The token that a character is on its own. -/
def ofPunctuation? (c : Char) : Option Token :=
  if c = '[' then some openBracket
  else if c = ']' then some closeBracket
  else if c = '\x7b' then some openBrace
  else if c = '\x7d' then some closeBrace
  else if c = ',' then some comma
  else if c = ':' then some colon
  else none

/-- The token of a word. -/
def ofWord? (cs : List Char) : Option Token :=
  if cs = ['n', 'u', 'l', 'l'] then some null
  else if cs = ['t', 'r', 'u', 'e'] then some (bool true)
  else if cs = ['f', 'a', 'l', 's', 'e'] then some (bool false)
  else none

/-- The token of a number literal. -/
def ofNumber? (cs : List Char) : Option Token :=
  (Number.Literal.parse? cs).map fun l => number l.toNumber?

/-- The token of a text that stood between quotes. -/
def ofQuoted? (cs : List Char) : Option Token :=
  (Text.pieces? cs).map fun ps => string ((Text.spell? ps).map String.ofList)

end Token

/-- Whether a character may stand between tokens. -/
def isSpace (c : Char) : Bool := c = ' ' || c = '\t' || c = '\n' || c = '\r'

/-- Whether a character may belong to a number literal. -/
def inNumber (c : Char) : Bool :=
  c.isDigit || c = '-' || c = '+' || c = '.' || c = 'e' || c = 'E'

/-- What the scanner is in the middle of.  The characters seen of an unfinished
token are held last first. -/
inductive Mode
  | between
  | number (seen : List Char)
  | word (seen : List Char)
  | string (seen : List Char)
  /-- In a string, directly after a backslash. -/
  | escape (seen : List Char)
  deriving DecidableEq

/-- The scanner: what it is in the middle of, and the finished tokens, last
first. -/
structure Scanner where
  mode : Mode
  tokens : List Token
  deriving DecidableEq

namespace Scanner

/-- The scanner before the first character. -/
def start : Scanner := ⟨.between, []⟩

/-- Add a finished token. -/
def push (s : Scanner) (t : Token) : Scanner := ⟨.between, t :: s.tokens⟩

/-- Take a character that starts something new. -/
def enter (s : Scanner) (c : Char) : Option Scanner :=
  if isSpace c then some ⟨.between, s.tokens⟩
  else if c = '"' then some ⟨.string [], s.tokens⟩
  else if c.isDigit || c = '-' then some ⟨.number [c], s.tokens⟩
  else if c.isAlpha then some ⟨.word [c], s.tokens⟩
  else (Token.ofPunctuation? c).map s.push

/-- Finish a number or a word. -/
def finish (s : Scanner) : Option Scanner :=
  match s.mode with
  | .between => some s
  | .number seen => (Token.ofNumber? seen.reverse).map s.push
  | .word seen => (Token.ofWord? seen.reverse).map s.push
  | .string _ => none
  | .escape _ => none

/-- Take one character. -/
def step (s : Scanner) (c : Char) : Option Scanner :=
  match s.mode with
  | .between => s.enter c
  | .number seen =>
    if inNumber c then some ⟨.number (c :: seen), s.tokens⟩
    else s.finish.bind (·.enter c)
  | .word seen =>
    if c.isAlpha then some ⟨.word (c :: seen), s.tokens⟩
    else s.finish.bind (·.enter c)
  | .string seen =>
    if c = '"' then (Token.ofQuoted? seen.reverse).map s.push
    else if c = '\\' then some ⟨.escape (c :: seen), s.tokens⟩
    else some ⟨.string (c :: seen), s.tokens⟩
  | .escape seen => some ⟨.string (c :: seen), s.tokens⟩

end Scanner

/-- The tokens of a text, or `none` if it has a part that is no token. -/
def tokens? (cs : List Char) : Option (List Token) :=
  (cs.foldlM Scanner.step Scanner.start).bind fun s =>
    s.finish.map fun s => s.tokens.reverse

end BrushLink.Json
