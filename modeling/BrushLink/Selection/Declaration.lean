import BrushLink.Channel
import BrushLink.Field
import BrushLink.Json.Basic

/-!
# Selections as declared

A selection is declared on a unit view by its type and some settings, each of
which may be left open.  Open settings are filled first from the user's
configuration and then from the built-in one.
-/

namespace BrushLink

/-- The kind of interaction that a selection captures. -/
inductive SelectionType
  | single | multi | interval
  deriving DecidableEq, Repr

namespace SelectionType

/-- The name of a selection type. -/
def name : SelectionType → String
  | single => "single"
  | multi => "multi"
  | interval => "interval"

instance : Vocabulary SelectionType := ⟨[single, multi, interval], name⟩

/-- The event stream of a selection that names none. -/
def defaultEvents : SelectionType → String
  | single | multi => "click"
  | interval => "[mousedown, window:mouseup] > window:mousemove!"

end SelectionType

/-- How the views that declare a selection share its state. -/
inductive Resolution
  | global | union | intersect
  deriving DecidableEq, Repr

namespace Resolution

/-- The name of a resolution. -/
def name : Resolution → String
  | global => "global"
  | union => "union"
  | intersect => "intersect"

instance : Vocabulary Resolution := ⟨[global, union, intersect], name⟩

instance : Inhabited Resolution := ⟨global⟩

end Resolution

/-- What a selection is bound to: the scales of its view, or an input widget
described by the members of an object. -/
inductive Bind
  | scales
  | widget (members : List (String × Json))
  deriving DecidableEq

/-- Whether two bindings say the same.  The order of members does not count. -/
def Bind.same : Bind → Bind → Bool
  | .scales, .scales => true
  | .widget a, .widget b => Json.same (.object a) (.object b)
  | _, _ => false

/-- The settings of a selection, each of which may be open. -/
structure Settings where
  /-- The event stream. -/
  on : Option String
  /-- The channels whose fields are captured. -/
  encodings : Option (List Channel)
  /-- The fields that are captured. -/
  fields : Option (List Field)
  resolve : Option Resolution
  bind : Option Bind
  deriving DecidableEq

namespace Settings

/-- All settings open. -/
def none : Settings := ⟨.none, .none, .none, .none, .none⟩

instance : Inhabited Settings := ⟨none⟩

/-- Whether the settings say what is captured. -/
def projects (s : Settings) : Bool := s.encodings.isSome || s.fields.isSome

/-- Fill open settings.  Channels and fields go together: settings that name
either keep both as they are. -/
def orElse (s defaults : Settings) : Settings where
  on := s.on <|> defaults.on
  encodings := if s.projects then s.encodings else defaults.encodings
  fields := if s.projects then s.fields else defaults.fields
  resolve := s.resolve <|> defaults.resolve
  bind := s.bind <|> defaults.bind

end Settings

/-- A selection as declared on a unit view. -/
structure SelectionDef where
  type : SelectionType
  settings : Settings
  deriving DecidableEq

/-- Fill the open settings of a declaration. -/
def SelectionDef.withDefaults (d : SelectionDef) (defaults : Settings) : SelectionDef :=
  ⟨d.type, d.settings.orElse defaults⟩

/-- Whether the declaration asks to drive the scales of its view. -/
def SelectionDef.isScaleBound (d : SelectionDef) : Bool :=
  match d.settings.bind with
  | some .scales => true
  | _ => false

/-- Settings for each type of selection. -/
structure SelectionConfig where
  single : Settings
  multi : Settings
  interval : Settings
  deriving DecidableEq

namespace SelectionConfig

/-- The configuration that leaves everything open. -/
def none : SelectionConfig := ⟨.none, .none, .none⟩

instance : Inhabited SelectionConfig := ⟨none⟩

/-- The settings for a type of selection. -/
def settingsFor (c : SelectionConfig) : SelectionType → Settings
  | .single => c.single
  | .multi => c.multi
  | .interval => c.interval

/-- What holds where neither declaration nor configuration says anything. -/
def builtin : SelectionConfig :=
  let point : Settings :=
    { Settings.none with on := some SelectionType.single.defaultEvents, resolve := some .global }
  { single := point
    multi := point
    interval :=
      { Settings.none with
        on := some SelectionType.interval.defaultEvents
        encodings := some [.x, .y]
        resolve := some .global } }

/-- Fill the open settings of a declaration from the configuration. -/
def fill (c : SelectionConfig) (d : SelectionDef) : SelectionDef :=
  d.withDefaults (c.settingsFor d.type)

/-- Fill the open settings of a declaration from the configuration, and what is
still open from the built-in one. -/
def apply (c : SelectionConfig) (d : SelectionDef) : SelectionDef :=
  builtin.fill (c.fill d)

end SelectionConfig

end BrushLink
