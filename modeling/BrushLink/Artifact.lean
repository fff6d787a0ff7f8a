import BrushLink.Diagnosis
import BrushLink.Json.Basic
import BrushLink.Signal.Basic

/-!
# The compiled artifact

What a specification compiles to: the signals of the outermost scope, and for
each view, as the walk meets them, its scales and signals.  The artifact is
handed on as JSON; parts that are absent or empty are left out.
-/

namespace BrushLink

/-- The domain of a compiled scale. -/
inductive CompiledDomain
  | literal (values : List Json)
  | data (fields : List Field)
  deriving DecidableEq

/-- A compiled scale. -/
structure CompiledScale where
  name : String
  type : ScaleType
  domain : CompiledDomain
  /-- The expression that drives the domain. -/
  raw : Option String
  deriving DecidableEq

/-- The scales and signals of a view. -/
structure CompiledView where
  name : String
  /-- `unit` or the name of an arrangement. -/
  kind : String
  scales : List CompiledScale
  signals : List Signal
  deriving DecidableEq

/-- The compiled artifact. -/
structure Artifact where
  signals : List Signal
  views : List CompiledView
  deriving DecidableEq

namespace Artifact

/-- The view of a name. -/
def view? (a : Artifact) (name : String) : Option CompiledView :=
  a.views.find? fun v => v.name = name

/-- The outermost signal of a name. -/
def signal? (a : Artifact) (name : String) : Option Signal :=
  a.signals.find? fun s => s.name = name

/-- All scales, view by view. -/
def scales (a : Artifact) : List CompiledScale := a.views.flatMap CompiledView.scales

end Artifact

/-! ## As JSON -/

/-- A member that may be absent. -/
def optionalMember {α : Type} (name : String) (toJson : α → Json) : Option α → List (String × Json)
  | some a => [(name, toJson a)]
  | none => []

/-- A list that is left out when it is empty. -/
def listMember {α : Type} (name : String) (toJson : α → Json) : List α → List (String × Json)
  | [] => []
  | as => [(name, .array (as.map toJson))]

/-- A reference to a signal. -/
def signalRef (expression : String) : Json := .object [("signal", .string expression)]

/-- What fires a handler, as JSON. -/
def Events.toJson : Events → Json
  | stream text => .string text
  | signal name => signalRef name
  | signals names => .array (names.map signalRef)

/-- A handler as JSON. -/
def Handler.toJson (h : Handler) : Json :=
  .object ([("events", h.events.toJson), ("update", .string h.update)] ++
    (if h.force then [("force", .bool true)] else []))

/-- A signal as JSON. -/
def Signal.toJson : Signal → Json
  | declared name value update on =>
    .object ([("name", .string name)] ++ optionalMember "value" id value ++
      optionalMember "update" .string update ++ listMember "on" Handler.toJson on)
  | push name => .object [("name", .string name), ("push", .string "outer")]

/-- A domain as JSON.  All data come from one source. -/
def CompiledDomain.toJson : CompiledDomain → Json
  | literal values => .array values
  | data [f] => .object [("data", .string "source_0"), ("field", .string f.name)]
  | data fs =>
    .object ([("data", .string "source_0")] ++ listMember "fields" (fun f => .string f.name) fs)

/-- A scale as JSON. -/
def CompiledScale.toJson (s : CompiledScale) : Json :=
  .object ([("name", .string s.name), ("type", .string s.type.name), ("domain", s.domain.toJson)] ++
    optionalMember "domainRaw" signalRef s.raw)

/-- A view as JSON. -/
def CompiledView.toJson (v : CompiledView) : Json :=
  .object ([("name", .string v.name), ("kind", .string v.kind)] ++
    listMember "scales" CompiledScale.toJson v.scales ++
    listMember "signals" Signal.toJson v.signals)

/-- The artifact as JSON. -/
def Artifact.toJson (a : Artifact) : Json :=
  .object [("signals", .array (a.signals.map Signal.toJson)),
    ("views", .array (a.views.map CompiledView.toJson))]

/-- A warning as JSON. -/
def Warning.toJson (w : Warning) : Json :=
  .object ([("code", .string w.code.name), ("message", .string w.message),
    ("view", .string w.view), ("selection", .string w.selection)] ++
    optionalMember "channel" (fun c => .string c.name) w.cause.channel?)

end BrushLink
