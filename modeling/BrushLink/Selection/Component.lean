import BrushLink.Diagnosis
import BrushLink.Scale.Table

/-!
# Selections on their views

A declared selection becomes a component of its unit view: open settings are
filled, and it is settled which fields are captured (the *projections*) and
which scales are driven.

Projections are listed by field in the order of first mention.  Explicit fields
come first and have no channel; the fields of explicit channels follow, and a
field that is captured already only gets the channel.  A declaration that names
neither captures every field of the encoding.

A globally resolved interval that is bound to scales drives the scale of each
captured channel; on a view whose row and column repeat the same field, that of
the opposite position as well.  Whether a scale can be driven depends on its
type alone, so components say which scales they drive, and the bindings are
entered in the table afterwards.
-/

namespace BrushLink

/-- A captured field, and the channel through which it is captured. -/
structure Projection where
  channel : Option Channel
  field : Field
  deriving DecidableEq

/-- A selection on a unit view. -/
structure Component where
  name : String
  type : SelectionType
  resolve : Resolution
  bind : Option Bind
  /-- The event stream. -/
  events : String
  projections : List Projection
  /-- The channels whose scales the selection drives. -/
  scales : List Channel
  /-- Whether the state of the driven channels lives in the outermost scope. -/
  pushOuter : Bool
  unit : ViewId
  deriving DecidableEq

namespace Component

/-- Whether the scale of a channel is driven. -/
def drives (k : Component) (c : Channel) : Bool := k.scales.contains c

/-- Whether the state of a projection lives in the outermost scope. -/
def pushes (k : Component) (p : Projection) : Bool := k.pushOuter && p.channel.any k.drives

/-- The first projection through a channel. -/
def projectionOn? (k : Component) (c : Channel) : Option Projection :=
  k.projections.find? fun p => p.channel = some c

end Component

/-- The expression for what a selection holds of a field. -/
def selectionEntry (selection : String) (f : Field) : String :=
  selection ++ "[" ++ Text.quote f.name ++ "]"

namespace UnitView

/-- The fields that settings capture on a view, each with its channel. -/
def captured (u : UnitView) (s : Settings) : Table Field (Option Channel) :=
  let implied := if s.projects then [] else u.fields
  let t := implied.foldl (fun t e => t.insert e.2 (some e.1)) ∅
  let t := (s.fields.getD []).foldl (fun t f => t.insertNew f none) t
  (s.encodings.getD []).foldl
    (fun t c =>
      match u.field? c with
      | some f => t.insert f (some c)
      | none => t)
    t

/-- The projections of settings on a view. -/
def project (u : UnitView) (s : Settings) : List Projection :=
  (u.captured s).entries.map fun e => ⟨e.2, e.1⟩

/-- The channels that settings name although the view has no field there. -/
def missingChannels (u : UnitView) (s : Settings) : List Channel :=
  (s.encodings.getD []).filter fun c => (u.field? c).isNone

end UnitView

/-- Whether an interval can capture a projection. -/
def Projection.isPositional (p : Projection) : Bool := p.channel.any Channel.isPositional

/-- The scales that projections want to drive, with the field that is to drive
them. -/
def drivenChannels (diagonal : Bool) (ps : List Projection) : List (Channel × Field) :=
  ps.flatMap fun p =>
    match p.channel with
    | none => []
    | some c =>
      (c, p.field) :: (if diagonal then c.opposite.toList.map fun o => (o, p.field) else [])

/-- A scale that a selection drives. -/
structure ScaleBinding where
  owner : ViewId
  channel : Channel
  expression : String
  deriving DecidableEq

/-- A component and the scales that it drives. -/
structure ParsedSelection where
  component : Component
  bindings : List ScaleBinding

/-- Where a selection is declared. -/
structure Declaration where
  unit : ViewId
  /-- The name of the unit view. -/
  view : String
  content : UnitView
  name : String
  selection : SelectionDef

namespace Declaration

/-- A warning on a declaration. -/
def warning (d : Declaration) (cause : WarningCause) : Warning := ⟨d.view, d.name, cause⟩

/-- The scale that a channel of the declaring view uses, if it can be driven. -/
def drivable? (scales : ScaleTable) (scope : List ViewId) (c : Channel) : Option Scale :=
  (scales.nearest? scope c).filter fun s => s.type.canBeDriven

/-- The declaration with open settings filled. -/
def filled (config : SelectionConfig) (d : Declaration) : Declaration :=
  { d with selection := config.apply d.selection }

/-- What the selection is resolved to. -/
def resolve (d : Declaration) : Resolution := d.selection.settings.resolve.getD .global

/-- Whether the selection is a globally resolved interval. -/
def isGlobalInterval (d : Declaration) : Bool :=
  d.selection.type = .interval && d.resolve = .global

/-- The projections that the selection keeps: an interval those on positions, the
others all. -/
def kept (d : Declaration) : List Projection :=
  let all := d.content.project d.selection.settings
  if d.selection.type = .interval then all.filter Projection.isPositional else all

/-- The projections that the selection drops. -/
def dropped (d : Declaration) : List Projection :=
  let all := d.content.project d.selection.settings
  if d.selection.type = .interval then all.filter fun p => !p.isPositional else []

/-- What there is to say of the captured fields: first the channels without
field, then the projections that are dropped. -/
def captureWarnings (d : Declaration) : List Warning :=
  ((d.content.missingChannels d.selection.settings).map fun c =>
      d.warning (.channelWithoutField c)) ++
    d.dropped.map fun p => d.warning (.channelNotPositional p.channel)

/-- The scales that the selection is to drive, each with its field. -/
def targets (d : Declaration) : List (Channel × Field) :=
  if d.selection.isScaleBound && d.isGlobalInterval then
    drivenChannels d.content.isDiagonal d.kept
  else []

/-- The bindings that come of the targets. -/
def bindings (scales : ScaleTable) (scope : List ViewId) (d : Declaration) : List ScaleBinding :=
  d.targets.filterMap fun t =>
    (drivable? scales scope t.1).map fun s => ⟨s.owner, t.1, selectionEntry d.name t.2⟩

/-- What there is to say of the scales: those that cannot be driven, or that the
selection cannot drive any. -/
def bindingWarnings (scales : ScaleTable) (scope : List ViewId) (d : Declaration) :
    List Warning :=
  if d.selection.isScaleBound && !d.isGlobalInterval then [d.warning .cannotDriveScales]
  else
    (d.targets.filter fun t => (drivable? scales scope t.1).isNone).map fun t =>
      d.warning (.scaleNotContinuous t.1)

/-- The channels whose scales are driven, each once. -/
def driven (scales : ScaleTable) (scope : List ViewId) (d : Declaration) : List Channel :=
  (d.targets.filter fun t => (drivable? scales scope t.1).isSome).foldl
    (fun cs t => if cs.contains t.1 then cs else cs ++ [t.1]) []

/-- Whether a view shares its scope with the outermost one: it is the root, or a
layer of it. -/
def sharesOuterScope (tree : ViewTree) (unit : ViewId) : Except ViewTree.Fault Bool := do
  match ← tree.parent unit with
  | none => pure true
  | some p =>
    let node ← tree.node p
    pure (node.parent.isNone && node.content.composite?.any fun c => c.kind = .layer)

/-- The component of a declaration.  `outer` says whether its view shares the
outermost scope. -/
def component (scales : ScaleTable) (scope : List ViewId) (outer : Bool) (d : Declaration) :
    Component where
  name := d.name
  type := d.selection.type
  resolve := d.resolve
  bind := d.selection.settings.bind
  events := d.selection.settings.on.getD d.selection.type.defaultEvents
  projections := d.kept
  scales := d.driven scales scope
  pushOuter := d.isGlobalInterval && !(d.driven scales scope).isEmpty && !outer
  unit := d.unit

/-- Turn a declaration, with its open settings filled, into a component.  It must
capture a field. -/
def parse (tree : ViewTree) (scales : ScaleTable) (d : Declaration) :
    Diagnosed ParsedSelection :=
  if d.kept.isEmpty then ⟨.error (.emptyProjection d.name d.view), d.captureWarnings⟩
  else
    match tree.ancestors d.unit, sharesOuterScope tree d.unit with
    | .ok scope, .ok outer =>
      ⟨.ok ⟨d.component scales scope outer, d.bindings scales scope⟩,
        d.captureWarnings ++ d.bindingWarnings scales scope⟩
    | .error fault, _ => ⟨.error (.outsideTree fault), d.captureWarnings⟩
    | _, .error fault => ⟨.error (.outsideTree fault), d.captureWarnings⟩

end Declaration

namespace ViewTree

/-- The selections declared on a unit view. -/
def declarationsOn (unit : ViewId) (view : String) (u : UnitView) : List Declaration :=
  u.selections.entries.map fun e => ⟨unit, view, u, e.1, e.2⟩

/-- All declared selections: unit by unit in the order of the walk, each unit's
in the order of declaration. -/
def declarations (t : ViewTree) : List Declaration :=
  t.units.flatMap fun u => declarationsOn u.1 u.2.1 u.2.2

end ViewTree

/-- Enter the bindings of components, in order; a later one takes the place of an
earlier one. -/
def ScaleTable.bindAll (t : ScaleTable) (bs : List ScaleBinding) : ScaleTable :=
  bs.foldl (fun t b => t.bind b.owner b.channel b.expression) t

/-- The components that were made up to the first failure, and that failure. -/
structure ParseProgress where
  parsed : List ParsedSelection
  warnings : List Warning
  failure : Option CompileError

namespace ParseProgress

/-- Turn declarations into components, one after the other, up to the first that
fails. -/
def run (tree : ViewTree) (config : SelectionConfig) (scales : ScaleTable) :
    List Declaration → ParseProgress
  | [] => ⟨[], [], none⟩
  | d :: ds =>
    let step := (d.filled config).parse tree scales
    match step.result with
    | .error e => ⟨[], step.warnings, some e⟩
    | .ok k =>
      let rest := run tree config scales ds
      ⟨k :: rest.parsed, step.warnings ++ rest.warnings, rest.failure⟩

/-- The scales with all bindings entered. -/
def bound (p : ParseProgress) (t : ScaleTable) : ScaleTable :=
  t.bindAll (p.parsed.flatMap ParsedSelection.bindings)

/-- The components. -/
def components (p : ParseProgress) : List Component := p.parsed.map ParsedSelection.component

end ParseProgress

end BrushLink
