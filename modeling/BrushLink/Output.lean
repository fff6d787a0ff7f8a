import BrushLink.Compilation
import BrushLink.Decode.View

/-!
# From text to artifact

The ways into the compiler: a text, the bytes of a file, or a JSON value.
-/

namespace BrushLink

/-- An artifact and what was worked around on the way. -/
structure Output where
  artifact : Artifact
  warnings : List Warning
  deriving DecidableEq

/-- The output as JSON. -/
def Output.toJson (o : Output) : Json :=
  .object [("compiled", o.artifact.toJson), ("warnings", .array (o.warnings.map Warning.toJson))]

/-- Why a file cannot be read. -/
inductive FileError
  | missing
  /-- The file is not text. -/
  | notText
  deriving DecidableEq

/-- Why there is no output. -/
inductive Failure
  | file (cause : FileError)
  | json (cause : DecodeError)
  | compile (cause : CompileError)
  deriving DecidableEq

/-- What the user is told. -/
def Failure.message : Failure → String
  | file .missing => "no such file"
  | file .notText => "the file is not text"
  | json cause => "invalid JSON: " ++ cause.message
  | compile cause => cause.message

/-- Compile a decoded specification. -/
def compileSpec (spec : ViewSpec) : Except Failure Output :=
  let d := compile spec
  match d.result with
  | .ok artifact => .ok ⟨artifact, d.warnings⟩
  | .error e => .error (.compile e)

/-- Compile the text of a specification. -/
def compileText (text : String) : Except Failure Output := do
  let spec ← (decodeText decodeView text).mapError .json
  compileSpec spec

/-- Compile a specification given as a JSON value. -/
def compileValue (v : Json) : Except Failure Output := do
  let spec ← (decodeValue decodeView v).mapError .json
  compileSpec spec

/-- Compile a file, given its bytes unless it does not exist. -/
def compileFile (content : Option ByteArray) : Except Failure Output :=
  match content with
  | none => .error (.file .missing)
  | some bytes =>
    match String.fromUTF8? bytes with
    | some text => compileText text
    | none => .error (.file .notText)

/-- What to print of an artifact. -/
structure PrintOptions where
  /-- Print this view only. -/
  view : Option String
  /-- Print without blanks and line breaks. -/
  compact : Bool
  deriving DecidableEq

/-- What to print for a file, or `none` if that fails: the artifact or one of its
views, and the end of the line. -/
def printFile (options : PrintOptions) (content : Option ByteArray) : Option String := do
  let output ← (compileFile content).toOption
  let v ← match options.view with
    | none => some output.artifact.toJson
    | some name => (output.artifact.view? name).map CompiledView.toJson
  pure ((if options.compact then v.compact else v.indented) ++ "\n")

end BrushLink
