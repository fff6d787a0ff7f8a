import BrushLink.Json.Basic

/-!
# Signals

What the reactive runtime is told: a signal is either declared in its scope,
with a value, an expression or handlers, or it pushes its value into the
enclosing scope.
-/

namespace BrushLink

/-- What fires a handler. -/
inductive Events
  /-- An event stream. -/
  | stream (text : String)
  /-- A change of another signal. -/
  | signal (name : String)
  /-- A change of one of several signals. -/
  | signals (names : List String)
  deriving DecidableEq

/-- A handler of a signal. -/
structure Handler where
  events : Events
  /-- The expression for the new value. -/
  update : String
  /-- Whether to go on even if the value stays. -/
  force : Bool
  deriving DecidableEq

/-- A signal. -/
inductive Signal
  | declared (name : String) (value : Option Json) (update : Option String) (on : List Handler)
  | push (name : String)
  deriving DecidableEq

namespace Signal

/-- A declaration of the name alone. -/
def bare (name : String) : Signal := declared name none none []

/-- A signal that follows an expression. -/
def following (name update : String) : Signal := declared name none (some update) []

/-- The name of a signal. -/
def name : Signal → String
  | declared n _ _ _ => n
  | push n => n

/-- The expression that a signal follows. -/
def update? : Signal → Option String
  | declared _ _ u _ => u
  | push _ => none

/-- The value that a signal starts with. -/
def value? : Signal → Option Json
  | declared _ v _ _ => v
  | push _ => none

/-- Whether the signal pushes into the enclosing scope. -/
def isPush : Signal → Bool
  | declared _ _ _ _ => false
  | push _ => true

end Signal

end BrushLink
