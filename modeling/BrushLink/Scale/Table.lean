import BrushLink.View.Tree

/-!
# Scales and where they live

Every field on a channel with a scale asks for a scale.  Requests travel up
the tree.  Where a view lets its children share a channel, their requests are
merged into one request of that view; where they are independent, the request
stays with the child.  What is left at the root stays there.

Merging keeps the first scale type, the fields in order of first mention, and
the first domain that does not come from the data.
-/

namespace BrushLink

/-- A request for a scale. -/
structure ScaleRequest where
  type : ScaleType
  domain : ScaleDomain
  fields : List Field
  deriving DecidableEq

/-- Merge a later request into an earlier one. -/
def ScaleRequest.merge (earlier later : ScaleRequest) : ScaleRequest where
  type := earlier.type
  domain := if earlier.domain.isData then later.domain else earlier.domain
  fields := earlier.fields ++ later.fields.filter fun f => !earlier.fields.contains f

/-- A scale at the view that owns it. -/
structure Scale where
  name : String
  channel : Channel
  type : ScaleType
  domain : ScaleDomain
  /-- The fields it shows, in order of first mention. -/
  fields : List Field
  owner : ViewId
  /-- The expression that drives it, if a selection is bound to it. -/
  binding : Option String
  deriving DecidableEq

namespace ScaleRequest

/-- The name of a scale: that of its channel at the root, below it with the name
of the owner before it. -/
def scaleName (owner : ViewId) (ownerName : String) (c : Channel) : String :=
  if owner = ViewTree.root then c.name else ownerName ++ "_" ++ c.name

/-- The scale that a request becomes at a view. -/
def settle (owner : ViewId) (ownerName : String) (c : Channel) (r : ScaleRequest) : Scale where
  name := scaleName owner ownerName c
  channel := c
  type := r.type
  domain := r.domain
  fields := r.fields
  owner := owner
  binding := none

end ScaleRequest

/-- The request that a channel makes on a view with a mark: none unless it has a
scale and a field. -/
def ChannelDef.scaleRequest? (mark : Mark) (c : Channel) (d : ChannelDef Field) :
    Option ScaleRequest :=
  if c.hasScale then
    d.field.map fun f =>
      ⟨d.scaleType.getD (.default c d.type mark d.binned), d.domain, [f]⟩
  else none

/-- The requests of a unit view, in the order of its encoding. -/
def UnitView.scaleRequests (u : UnitView) : Table Channel ScaleRequest :=
  u.encoding.filterMap (ChannelDef.scaleRequest? u.mark)

/-- The scales of a part of a tree: those settled already, in the order in which
they were settled, and the requests that the view at the top still makes. -/
structure ScaleHarvest where
  settled : List Scale
  requests : Table Channel ScaleRequest

namespace ScaleHarvest

/-- Take one request of a child: settle it there, or merge it into the requests
of the view. -/
def absorb (view : CompositeView) (child : ViewId) (childName : String) (h : ScaleHarvest)
    (r : Channel × ScaleRequest) : ScaleHarvest :=
  match view.mode r.1 with
  | .independent => { h with settled := h.settled ++ [r.2.settle child childName r.1] }
  | .shared =>
    let merged := match h.requests.get? r.1 with
      | some earlier => earlier.merge r.2
      | none => r.2
    { h with requests := h.requests.insert r.1 merged }

/-- Take all that a child has to offer. -/
def take (view : CompositeView) (h : ScaleHarvest) (child : ViewId) (childName : String)
    (offer : ScaleHarvest) : ScaleHarvest :=
  offer.requests.entries.foldl (absorb view child childName)
    ⟨h.settled ++ offer.settled, h.requests⟩

mutual

/-- The scales of a branch. -/
def ofBranch : Branch → ScaleHarvest
  | .mk _ node children =>
    match node.content with
    | .unit u => ⟨[], u.scaleRequests⟩
    | .composite v => ofChildren v ⟨[], ∅⟩ children

/-- The scales of the children of a view, one child after the other. -/
def ofChildren (view : CompositeView) (h : ScaleHarvest) : List Branch → ScaleHarvest
  | [] => h
  | b :: bs => ofChildren view (h.take view b.id b.node.name (ofBranch b)) bs

end

end ScaleHarvest

/-- The scales of a tree, known by owner and channel. -/
structure ScaleTable where
  scales : Table (ViewId × Channel) Scale
  deriving DecidableEq

namespace ScaleTable

/-- No scales. -/
def empty : ScaleTable := ⟨∅⟩

/-- Add a scale at its owner. -/
def add (t : ScaleTable) (s : Scale) : ScaleTable := ⟨t.scales.insert (s.owner, s.channel) s⟩

/-- The scales of a tree. -/
def ofTree (tree : ViewTree) : ScaleTable :=
  match tree.trunk? with
  | none => empty
  | some b =>
    let h := ScaleHarvest.ofBranch b
    let rest := h.requests.entries.map fun r => r.2.settle b.id b.node.name r.1
    (h.settled ++ rest).foldl add empty

/-- The scale of a channel that a view owns. -/
def get? (t : ScaleTable) (owner : ViewId) (c : Channel) : Option Scale :=
  t.scales.get? (owner, c)

/-- How many scales there are. -/
def size (t : ScaleTable) : Nat := t.scales.size

/-- All scales, in the order in which they were settled. -/
def toList (t : ScaleTable) : List Scale := t.scales.values

/-- The first scale of a channel that one of several views owns. -/
def nearest? (t : ScaleTable) (views : List ViewId) (c : Channel) : Option Scale :=
  views.findSome? fun v => t.get? v c

/-- The scale that a view uses for a channel: its own, or that of the nearest
ancestor that has one. -/
def lookup (t : ScaleTable) (tree : ViewTree) (view : ViewId) (c : Channel) :
    Except ViewTree.Fault (Option Scale) :=
  (tree.ancestors view).map fun vs => t.nearest? vs c

/-- The scales that a view owns, in canonical order of channels. -/
def ownedBy (t : ScaleTable) (view : ViewId) : List Scale :=
  Channel.all.filterMap fun c => t.get? view c

/-- Let an expression drive a scale. -/
def bind (t : ScaleTable) (owner : ViewId) (c : Channel) (expression : String) : ScaleTable :=
  ⟨t.scales.modify (owner, c) fun s => { s with binding := some expression }⟩

end ScaleTable

end BrushLink
