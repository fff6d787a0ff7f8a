import BrushLink.Channel
import BrushLink.Field
import BrushLink.View.Tree

/-!
# Errors and warnings

What is wrong with a specification that cannot be compiled is its error.  What the
compiler works around is reported beside the result: a warning has a view, a
selection and a cause, and the wording follows from these.

`Diagnosed` is the result of a step that may warn and may fail.  Warnings that
were raised before a failure are not lost.
-/

namespace BrushLink

/-! ## Errors -/

/-- Why a specification cannot be compiled.  The last two cases do not arise from
specifications, but from asking a tree for views that it has not. -/
inductive CompileError
  | malformedView (view : String) (fault : Malformation)
  | duplicateView (name : String)
  | unresolvedRepeat (view : String) (axis : Axis)
  | conflictingSelection (name first second : String)
  | emptyProjection (selection view : String)
  | notAUnit (view : String)
  | outsideTree (fault : ViewTree.Fault)
  deriving DecidableEq

namespace CompileError

/-- What the user is told. -/
def message : CompileError → String
  | malformedView view fault => "view '" ++ view ++ "' is malformed: " ++ fault.reason
  | duplicateView name => "duplicate view name '" ++ name ++ "'"
  | unresolvedRepeat view axis =>
    "view '" ++ view ++ "' references repeat " ++ axis.name ++
      " outside of a repeated " ++ axis.name
  | conflictingSelection name first second =>
    "selection '" ++ name ++ "' is declared in '" ++ first ++ "' and '" ++ second ++
      "' with conflicting definitions"
  | emptyProjection selection view =>
    "selection '" ++ selection ++ "' in view '" ++ view ++ "' projects onto no field"
  | notAUnit view => "view '" ++ view ++ "' is not a unit view"
  | outsideTree (.unknownView id) => "no view #" ++ id.repr
  | outsideTree .secondRoot => "view tree already has a root"

/-- A question to the tree as part of a compilation. -/
def ofTree {α : Type} (answer : Except ViewTree.Fault α) : Except CompileError α :=
  answer.mapError outsideTree

end CompileError

/-! ## Warnings -/

/-- What a warning is about. -/
inductive WarningCause
  /-- A channel without field cannot be captured. -/
  | channelWithoutField (channel : Channel)
  /-- A scale that is missing, discrete or binned cannot be driven. -/
  | scaleNotContinuous (channel : Channel)
  /-- Only a globally resolved interval can drive scales. -/
  | cannotDriveScales
  /-- An interval captures positions only. -/
  | channelNotPositional (channel : Option Channel)
  /-- A domain had to pick one of several captured fields. -/
  | severalFields (picked : Field)
  deriving DecidableEq

/-- A condition that does not stop the compiler. -/
structure Warning where
  view : String
  selection : String
  cause : WarningCause
  deriving DecidableEq

/-- The class of a warning. -/
inductive WarningCode
  | cannotProjectOnChannelWithoutField
  | scaleBindingsContinuous
  | unsupportedScaleBinding
  | intervalChannelUnsupported
  | selectionDomainMultipleFields
  deriving DecidableEq, Repr

namespace WarningCode

/-- All classes, in the order in which they are counted. -/
def all : List WarningCode :=
  [cannotProjectOnChannelWithoutField, scaleBindingsContinuous, unsupportedScaleBinding,
   intervalChannelUnsupported, selectionDomainMultipleFields]

/-- The name of a class. -/
def name : WarningCode → String
  | cannotProjectOnChannelWithoutField => "CannotProjectOnChannelWithoutField"
  | scaleBindingsContinuous => "ScaleBindingsContinuous"
  | unsupportedScaleBinding => "UnsupportedScaleBinding"
  | intervalChannelUnsupported => "IntervalChannelUnsupported"
  | selectionDomainMultipleFields => "SelectionDomainMultipleFields"

end WarningCode

/-- The class of a cause. -/
def WarningCause.code : WarningCause → WarningCode
  | channelWithoutField _ => .cannotProjectOnChannelWithoutField
  | scaleNotContinuous _ => .scaleBindingsContinuous
  | cannotDriveScales => .unsupportedScaleBinding
  | channelNotPositional _ => .intervalChannelUnsupported
  | severalFields _ => .selectionDomainMultipleFields

/-- The channel that a cause names. -/
def WarningCause.channel? : WarningCause → Option Channel
  | channelWithoutField c => some c
  | scaleNotContinuous c => some c
  | cannotDriveScales => none
  | channelNotPositional c => c
  | severalFields _ => none

namespace Warning

/-- The class of a warning. -/
def code (w : Warning) : WarningCode := w.cause.code

/-- What the user is told. -/
def message (w : Warning) : String :=
  match w.cause with
  | .channelWithoutField c =>
    "Cannot project selection \"" ++ w.selection ++ "\" on encoding channel \"" ++ c.name ++
      "\", which has no field."
  | .scaleNotContinuous c =>
    "Scale bindings are currently only supported for scales with unbinned, continuous domains; " ++
      "selection \"" ++ w.selection ++ "\" is not bound to the \"" ++ c.name ++ "\" scale."
  | .cannotDriveScales =>
    "Scale bindings require an interval selection with \"global\" resolution; selection \"" ++
      w.selection ++ "\" is not bound."
  | .channelNotPositional c =>
    let what := match c with
      | some c => "\"" ++ c.name ++ "\""
      | none => "field-only"
    "Interval selections only support x and y encoding channels; selection \"" ++ w.selection ++
      "\" drops its " ++ what ++ " projection."
  | .severalFields f =>
    "A \"field\" or \"encoding\" must be specified when using selection \"" ++ w.selection ++
      "\" as a scale domain. Using \"" ++ f.name ++ "\"."

/-- The warning on a line of its own. -/
def line (w : Warning) : String :=
  "warning[" ++ w.code.name ++ "] in '" ++ w.view ++ "': " ++ w.message

end Warning

/-- Warnings as a text, one a line. -/
def renderWarnings (ws : List Warning) : String :=
  String.join (ws.map fun w => w.line ++ "\n")

/-! ## Steps that warn and fail -/

/-- The result of a step that may warn and may fail. -/
structure Diagnosed (α : Type) where
  result : Except CompileError α
  warnings : List Warning

namespace Diagnosed

variable {α β : Type}

/-- A result without warnings. -/
def pure (a : α) : Diagnosed α := ⟨.ok a, []⟩

/-- A failure without warnings. -/
def fail (e : CompileError) : Diagnosed α := ⟨.error e, []⟩

/-- Warnings, and nothing else. -/
def warn (ws : List Warning) : Diagnosed Unit := ⟨.ok (), ws⟩

/-- A result without warnings, or a failure. -/
def ofExcept (r : Except CompileError α) : Diagnosed α := ⟨r, []⟩

/-- Go on with a result.  Warnings are kept in the order in which they arose. -/
def bind (x : Diagnosed α) (f : α → Diagnosed β) : Diagnosed β :=
  match x.result with
  | .ok a => ⟨(f a).result, x.warnings ++ (f a).warnings⟩
  | .error e => ⟨.error e, x.warnings⟩

instance : Monad Diagnosed where
  pure := pure
  bind := bind

/-- Carry out a step for each element of a list, up to the first failure. -/
def forEach (f : α → Diagnosed β) : List α → Diagnosed (List β)
  | [] => pure []
  | a :: as => do
    let b ← f a
    let bs ← forEach f as
    pure (b :: bs)

end Diagnosed

end BrushLink
