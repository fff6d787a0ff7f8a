import BrushLink.Selection.Component
import BrushLink.Signal.Basic
import BrushLink.Text.Character

/-!
# The signals of a unit view

An interval has, for each channel it captures, a signal with the extent in
pixels and one with the extent in the data, and then a signal with the whole
tuple.  A driven channel has no extent in pixels; its data signal pushes outward
or starts at null.  The other types have the tuple first and then one signal
for each field.

Last comes the composite, an object from fields to data signals, unless the
selection lives in the outermost scope.
-/

namespace BrushLink

/-- The part of a drag stream before the first comma that stands in no inner
bracket, or `none` if the outer bracket closes before one.  `depth` inner
brackets are open. -/
def beforeComma? (depth : Nat) : List Char → Option (List Char)
  | [] => none
  | c :: cs =>
    if c = '[' then (beforeComma? (depth + 1) cs).map (c :: ·)
    else if c = ']' then
      match depth with
      | 0 => none
      | d + 1 => (beforeComma? d cs).map (c :: ·)
    else if c = ',' ∧ depth = 0 then some []
    else (beforeComma? depth cs).map (c :: ·)

/-- The event that starts a drag: `A` in `[A, B] > C`, and the whole stream if it
is not of that form. -/
def startEventChars (stream : List Char) : List Char :=
  let trimmed := Text.trim stream
  match trimmed with
  | '[' :: rest =>
    match beforeComma? 0 rest with
    | some a => Text.trim a
    | none => trimmed
  | _ => trimmed

/-- The event that starts a drag. -/
def startEvent (stream : String) : String := String.ofList (startEventChars stream.toList)

/-- An object literal from fields to expressions, in the order given. -/
def compositeUpdate (entries : List (String × String)) : String :=
  "\x7b" ++ ", ".intercalate (entries.map fun e => Text.quote e.1 ++ ": " ++ e.2) ++ "\x7d"

/-- The name of the signal that holds the data of a field. -/
def dataSignalName (selection : String) (f : Field) : String := selection ++ "_" ++ f.name

namespace Component

/-- The names of the data signals, one for each projection. -/
def dataNames (k : Component) : List String :=
  k.projections.map fun p => dataSignalName k.name p.field

/-- The name of the signal that holds the whole tuple. -/
def tupleName (k : Component) : String := k.name ++ "_tuple"

/-- The fields and their data signals. -/
def dataEntries (k : Component) : List (String × String) :=
  k.projections.map fun p => (p.field.name, dataSignalName k.name p.field)

/-- A name that is not taken, by appending underscores at most so many times.  The
candidates differ, so as many times as there are taken names is enough. -/
def freeName (taken : List String) : Nat → String → String
  | 0, candidate => candidate
  | times + 1, candidate =>
    if taken.contains candidate then freeName taken times (candidate ++ "_") else candidate

/-- The name of the signal that holds the extent of a channel in pixels.  Names
of data signals are avoided. -/
def visualName (k : Component) (c : Channel) : String :=
  freeName k.dataNames k.dataNames.length (k.name ++ "_" ++ c.name ++ "_px")

/-- The channels that an interval captures, with their fields. -/
def brushed (k : Component) : List (Channel × Field) :=
  k.projections.filterMap fun p => p.channel.map fun c => (c, p.field)

/-- The extent of a brush along a channel, in pixels. -/
def visualSignal (k : Component) (c : Channel) : Signal :=
  let name := k.visualName c
  let position := c.name ++ "(unit)"
  let extent := c.extentSignal.getD "width"
  .declared name (some (.array [])) none
    [⟨.stream (startEvent k.events), "[" ++ position ++ ", " ++ position ++ "]", false⟩,
     ⟨.stream k.events, "[" ++ name ++ "[0], clamp(" ++ position ++ ", 0, " ++ extent ++ ")]",
      false⟩]

/-- The extent of a brush along a channel, in the data. -/
def extentSignal (k : Component) (scale : String) (c : Channel) (f : Field) : Signal :=
  let visual := k.visualName c
  .declared (dataSignalName k.name f) none none
    [⟨.signal visual,
      visual ++ "[0] === " ++ visual ++ "[1] ? null : invert(" ++ Text.quote scale ++ ", " ++
        visual ++ ")",
      false⟩]

/-- The signals of one captured channel of an interval.  `scaleName` is the name
of the scale that the view uses for a channel. -/
def brushSignals (k : Component) (scaleName : Channel → Option String) (c : Channel)
    (f : Field) : List Signal :=
  if k.drives c then
    if k.pushOuter then [.push (dataSignalName k.name f)]
    else [.declared (dataSignalName k.name f) (some .null) none []]
  else [k.visualSignal c, k.extentSignal ((scaleName c).getD c.name) c f]

/-- The tuple of an interval. -/
def intervalTuple (k : Component) (view : String) : Signal :=
  let intervals := k.brushed.map fun b =>
    "\x7bencoding: " ++ Text.quote b.1.name ++ ", field: " ++ Text.quote b.2.name ++
      ", extent: " ++ dataSignalName k.name b.2 ++ "\x7d"
  .declared k.tupleName none none
    [⟨.signals (k.brushed.map fun b => dataSignalName k.name b.2),
      "\x7bunit: " ++ Text.quote view ++ ", intervals: [" ++ ", ".intercalate intervals ++ "]\x7d",
      false⟩]

/-- The signals of an interval, without the composite. -/
def intervalSignals (k : Component) (view : String) (scaleName : Channel → Option String) :
    List Signal :=
  (k.brushed.flatMap fun b => k.brushSignals scaleName b.1 b.2) ++ [k.intervalTuple view]

/-- The tuple of a selection of single data points. -/
def pointTuple (k : Component) (view : String) : Signal :=
  let encodings := k.projections.filterMap fun p => p.channel.map fun c => Text.quote c.name
  let fields := k.projections.map fun p => Text.quote p.field.name
  let values := k.projections.map fun p => p.field.access "datum"
  .declared k.tupleName (some (.object [])) none
    [⟨.stream k.events,
      "datum && item().mark.marktype !== 'group' ? \x7bunit: " ++ Text.quote view ++
        ", encodings: [" ++ ", ".intercalate encodings ++
        "], fields: [" ++ ", ".intercalate fields ++
        "], values: [" ++ ", ".intercalate values ++ "]\x7d : null",
      true⟩]

/-- The signals of a selection of single data points, without the composite. -/
def pointSignals (k : Component) (view : String) : List Signal :=
  k.pointTuple view :: k.projections.mapIdx fun i p =>
    .following (dataSignalName k.name p.field)
      (k.tupleName ++ " ? " ++ k.tupleName ++ ".values[" ++ i.repr ++ "] : null")

/-- The signals of a selection on its unit view. -/
def signals (k : Component) (view : String) (scaleName : Channel → Option String) : List Signal :=
  let own := match k.type with
    | .interval => k.intervalSignals view scaleName
    | .single | .multi => k.pointSignals view
  if k.pushOuter then own else own ++ [.following k.name (compositeUpdate k.dataEntries)]

end Component

/-- The signals of the selections on a view.  The view is asked for only if there
are any. -/
def unitSignals (tree : ViewTree) (scales : ScaleTable) (view : ViewId) (ks : List Component) :
    Except ViewTree.Fault (List Signal) :=
  if ks.isEmpty then .ok []
  else do
    let name ← tree.name view
    let scope ← tree.ancestors view
    pure (ks.flatMap fun k => k.signals name fun c => (scales.nearest? scope c).map Scale.name)

end BrushLink
