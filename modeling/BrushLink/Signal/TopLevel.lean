import BrushLink.Signal.Unit

/-!
# The signals of the outermost scope

Unit views are merged one after the other into the signals of the outermost
scope.  Only selections whose state lives there contribute: the data signal of
each pushed projection is declared once, after the composite of its selection,
whose expression is made anew from all fields met so far.  Ahead of everything
stands the signal that tracks the view under the pointer.
-/

namespace BrushLink

/-- The signals of the outermost scope, and for each selection that has a
composite there its fields and their data signals in order of first mention. -/
structure TopLevel where
  signals : List Signal
  composites : Table String (Table String String)
  deriving DecidableEq

namespace TopLevel

/-- Nothing merged yet. -/
def empty : TopLevel := ⟨[], ∅⟩

/-- The signal that tracks the view under the pointer. -/
def tracker : Signal :=
  .declared "unit" (some (.object [])) none
    [⟨.stream "mousemove", "isTuple(group()) ? group() : unit", false⟩]

/-- Whether a signal of a name is there. -/
def contains (t : TopLevel) (name : String) : Bool := t.signals.any fun s => s.name = name

/-- The first signal of a name. -/
def get? (t : TopLevel) (name : String) : Option Signal :=
  t.signals.find? fun s => s.name = name

/-- Put a signal in the place of the first one of its name, or at the end. -/
def upsertSignal (s : Signal) : List Signal → List Signal
  | [] => [s]
  | r :: rs => if r.name = s.name then s :: rs else r :: upsertSignal s rs

/-- Make sure that the pointer is tracked. -/
def track (t : TopLevel) : TopLevel :=
  if t.contains tracker.name then t else { t with signals := tracker :: t.signals }

/-- The pushed fields of a component whose data signals are not there yet. -/
def introduced (t : TopLevel) (k : Component) : List Field :=
  ((k.projections.filter k.pushes).map Projection.field).filter fun f =>
    !t.contains (dataSignalName k.name f)

/-- Merge a component whose state lives in the outermost scope. -/
def mergeComponent (t : TopLevel) (k : Component) : TopLevel :=
  match t.introduced k with
  | [] => t
  | fs =>
    let entries := fs.foldl (fun es f => es.insertNew f.name (dataSignalName k.name f))
      ((t.composites.get? k.name).getD ∅)
    let composite := Signal.following k.name (compositeUpdate entries.entries)
    { signals :=
        upsertSignal composite t.signals ++ fs.map fun f => .bare (dataSignalName k.name f)
      composites := t.composites.insert k.name entries }

/-- Merge the components of a unit view. -/
def merge (t : TopLevel) (ks : List Component) : TopLevel :=
  if ks.isEmpty then t
  else (ks.filter Component.pushOuter).foldl mergeComponent t.track

end TopLevel

end BrushLink
