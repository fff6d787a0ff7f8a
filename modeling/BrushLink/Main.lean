import BrushLink.Output

/-!
# The command line

`[--compact] [--view NAME] FILE` compiles a file and prints the artifact, or one
view of it.  The exit code is 0 if that succeeds, 1 if it fails, and 2 if the
arguments are not understood.
-/

namespace BrushLink

/-- What the arguments ask for. -/
structure Arguments where
  options : PrintOptions
  file : Option String

/-- Read the arguments, or `none` if they are not understood. -/
def Arguments.parse? (a : Arguments) : List String → Option Arguments
  | [] => some a
  | "--compact" :: rest => { a with options := { a.options with compact := true } }.parse? rest
  | "--view" :: name :: rest =>
    { a with options := { a.options with view := some name } }.parse? rest
  | arg :: rest =>
    match arg.toList with
    | '-' :: '-' :: 'v' :: 'i' :: 'e' :: 'w' :: '=' :: name =>
      { a with options := { a.options with view := some (String.ofList name) } }.parse? rest
    | '-' :: _ :: _ => none
    | _ => if a.file.isSome then none else { a with file := some arg }.parse? rest

end BrushLink

open BrushLink in
def main (args : List String) : IO UInt32 := do
  match ({ options := ⟨none, false⟩, file := none } : Arguments).parse? args with
  | some { options, file := some path } =>
    let content ← (IO.FS.readBinFile path).toBaseIO
    match printFile options content.toOption with
    | some text =>
      IO.print text
      return 0
    | none => return 1
  | _ =>
    IO.eprintln "usage: [--compact] [--view NAME] FILE"
    return 2
