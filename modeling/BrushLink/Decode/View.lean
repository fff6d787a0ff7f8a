import BrushLink.Decode.Basic
import BrushLink.View.Spec

/-!
# Decoding view specifications

The shape of a specification: which members a view, an encoding, a selection
and a configuration have, and how each is written.
-/

namespace BrushLink

open Json.Source (asString asOption asList asName asTable alternatives named)

/-- A field, by its name. -/
def decodeField (v : Json.Source) : Except DecodeError Field := Field.mk <$> asString v

/-- A list of strings. -/
def decodeStrings (limit : Nat) (v : Json.Source) : Except DecodeError (List String) :=
  asList (fun _ => asString) limit v

/-! ## Selections -/

/-- The word that binds a selection to scales. -/
inductive BindWord
  | scales

instance : Vocabulary BindWord := ⟨[.scales], fun _ => "scales"⟩

/-- The word that binds a selection to scales. -/
def decodeScalesWord (limit : Nat) (v : Json.Source) : Except DecodeError Bind :=
  (asName limit v : Except DecodeError BindWord).map fun _ => .scales

/-- The description of an input widget. -/
def decodeWidget (limit : Nat) (v : Json.Source) : Except DecodeError Bind := do
  match ← v.value limit with
  | .object ms => pure (.widget ms)
  | _ => v.refuse .map

/-- What a selection is bound to. -/
def decodeBind (limit : Nat) (v : Json.Source) : Except DecodeError Bind :=
  alternatives "BindSpec" limit [decodeScalesWord, decodeWidget] v

/-- The members of settings. -/
def settingNames : List String := ["on", "encodings", "fields", "resolve", "bind"]

/-- Read a member of settings. -/
def readSetting (limit : Nat) (s : Settings) (k : String) (v : Json.Source) :
    Except DecodeError Settings :=
  match k with
  | "on" => (asOption asString v).map fun on => { s with on }
  | "encodings" =>
    (asOption (asList asName limit) v).map fun encodings => { s with encodings }
  | "fields" =>
    (asOption (asList (fun _ => decodeField) limit) v).map fun fields => { s with fields }
  | "resolve" => (asOption (asName limit) v).map fun resolve => { s with resolve }
  | "bind" => (asOption (decodeBind limit) v).map fun bind => { s with bind }
  | _ => .ok s

/-- The settings for one type of selection. -/
def settingsRecord : Record Settings := ⟨"SelectionDefaults", settingNames, .none, readSetting⟩

/-- A selection of which the type may not have been read yet. -/
def selectionRecord : Record (Option SelectionType × Settings) where
  title := "SelectionDef"
  members := "type" :: settingNames
  start := (none, .none)
  read := fun limit d k v =>
    match k with
    | "type" => (asName limit v).map fun type => (some type, d.2)
    | k => (readSetting limit d.2 k v).map fun s => (d.1, s)

/-- A selection as declared. -/
def decodeSelection (limit : Nat) (v : Json.Source) : Except DecodeError SelectionDef := do
  match ← selectionRecord.decode limit v with
  | (some type, settings) => pure ⟨type, settings⟩
  | (none, _) => .error (selectionRecord.lacks v "type")

/-- The settings for each type of selection. -/
def selectionConfigRecord : Record SelectionConfig where
  title := "SelectionConfig"
  members := ["single", "multi", "interval"]
  start := .none
  read := fun limit c k v =>
    match k with
    | "single" => (settingsRecord.decode limit v).map fun single => { c with single }
    | "multi" => (settingsRecord.decode limit v).map fun multi => { c with multi }
    | "interval" => (settingsRecord.decode limit v).map fun interval => { c with interval }
    | _ => .ok c

/-- The configuration of a specification. -/
def configRecord : Record SelectionConfig where
  title := "ConfigSpec"
  members := ["selection"]
  start := .none
  read := fun limit _ _ v => selectionConfigRecord.decode limit v

/-! ## Encodings -/

/-- A domain that follows a selection, of which the name may not have been read
yet. -/
def selectionDomainRecord : Record (Option String × Option Field × Option Channel) where
  title := "SelectionDomain"
  members := ["selection", "field", "encoding"]
  start := (none, none, none)
  read := fun limit d k v =>
    match k with
    | "selection" => (asString v).map fun s => (some s, d.2)
    | "field" => (asOption decodeField v).map fun f => (d.1, f, d.2.2)
    | "encoding" => (asOption (asName limit) v).map fun c => (d.1, d.2.1, c)
    | _ => .ok d

/-- A domain that follows a selection. -/
def decodeSelectionDomain (limit : Nat) (v : Json.Source) :
    Except DecodeError SelectionDomain := do
  match ← selectionDomainRecord.decode limit v with
  | (some selection, field, encoding) => pure ⟨selection, field, encoding⟩
  | (none, _) => .error (selectionDomainRecord.lacks v "selection")

/-- A list of values as a domain. -/
def decodeLiteralDomain (limit : Nat) (v : Json.Source) : Except DecodeError ScaleDomain :=
  (asList Json.Source.value limit v).map .literal

/-- A domain: a list of values, a selection, or a word that leaves it to the
data. -/
def decodeDomain (limit : Nat) (v : Json.Source) : Except DecodeError ScaleDomain :=
  alternatives "DomainSpec" limit
    [decodeLiteralDomain,
     fun limit v => (decodeSelectionDomain limit v).map .selection,
     fun _ v => (asString v).map fun _ => .data] v

/-- The scale of an encoding: its type and its domain. -/
def scaleRecord : Record (Option ScaleType × ScaleDomain) where
  title := "ScaleSpec"
  members := ["type", "domain"]
  start := (none, .data)
  read := fun limit s k v =>
    match k with
    | "type" => (asOption (asName limit) v).map fun type => (type, s.2)
    | "domain" => (asOption (decodeDomain limit) v).map fun d => (s.1, d.getD .data)
    | _ => .ok s

/-- An object with one member that is a name. -/
def oneNameRecord (α : Type) [Vocabulary α] (title member : String) : Record (Option α) where
  title := title
  members := [member]
  start := none
  read := fun limit _ _ v => (asName limit v).map some

/-- An object of which one member is a name. -/
def decodeOneName (α : Type) [Vocabulary α] (title member : String) (limit : Nat)
    (v : Json.Source) : Except DecodeError α := do
  match ← (oneNameRecord α title member).decodeObject limit v with
  | some a => pure a
  | none => .error (.missingMember member)

/-- The field of an encoding. -/
def decodeFieldSource (limit : Nat) (v : Json.Source) : Except DecodeError FieldSource :=
  alternatives "FieldSpec" limit
    [fun _ v => (decodeField v).map .named,
     fun limit v => (decodeOneName Axis "FieldSpec" "repeat" limit v).map .repeated] v

/-- Whether a field is binned: unless nothing or false is said. -/
def decodeBinned (limit : Nat) (v : Json.Source) : Except DecodeError Bool :=
  (asOption (Json.Source.value limit) v).map fun b =>
    match b with
    | none => false
    | some (.bool false) => false
    | some _ => true

/-- What a channel encodes. -/
def channelRecord : Record (ChannelDef FieldSource) where
  title := "FieldDefSpec"
  members := ["field", "type", "bin", "scale"]
  start := ⟨none, .nominal, false, none, .data⟩
  read := fun limit d k v =>
    match k with
    | "field" => (asOption (decodeFieldSource limit) v).map fun field => { d with field }
    | "type" =>
      (asOption (asName limit) v).map fun type => { d with type := type.getD .nominal }
    | "bin" => (decodeBinned limit v).map fun binned => { d with binned }
    | "scale" =>
      (asOption (scaleRecord.decode limit) v).map fun s =>
        let s := s.getD scaleRecord.start
        { d with scaleType := s.1, domain := s.2 }
    | _ => .ok d

/-- An entry of an encoding: a list of fields or one. -/
def decodeChannel (limit : Nat) (v : Json.Source) : Except DecodeError ChannelSpec :=
  alternatives "ChannelSpec" limit
    [fun limit v => (asList Json.Source.value limit v).map fun _ => .list,
     fun limit v => (channelRecord.decode limit v).map .single] v

/-! ## Views -/

/-- A mark: its name, or an object that has it as type. -/
def decodeMark (limit : Nat) (v : Json.Source) : Except DecodeError Mark :=
  alternatives "MarkSpec" limit [asName, decodeOneName Mark "MarkSpec" "type"] v

/-- The lists for which a template is repeated. -/
def repeatRecord : Record (Option (List String) × Option (List String)) where
  title := "RepeatSpec"
  members := ["row", "column"]
  start := (none, none)
  read := fun limit r k v =>
    match k with
    | "row" => (asOption (decodeStrings limit) v).map fun row => (row, r.2)
    | "column" => (asOption (decodeStrings limit) v).map fun column => (r.1, column)
    | _ => .ok r

/-- The fields by whose values a template is repeated.  They are checked, but
nothing depends on them. -/
def facetRecord : Record Unit where
  title := "FacetSpec"
  members := ["row", "column"]
  start := ()
  read := fun limit _ _ v => (asOption (channelRecord.decode limit) v).map fun _ => ()

/-- Which scales the children of a view share. -/
def resolveRecord : Record (Table Channel ResolveMode) where
  title := "ResolveSpec"
  members := ["scale"]
  start := ∅
  read := fun limit _ _ v => asTable named asName limit v

/-- The members of a view that have been read. -/
structure ViewDraft where
  head : ViewHead
  mark : Option Mark
  layer : Option (List ViewSpec)
  hconcat : Option (List ViewSpec)
  vconcat : Option (List ViewSpec)
  concat : Option (List ViewSpec)
  repetition : Option (Option (List String) × Option (List String))
  facet : Bool
  template : Option ViewSpec

namespace ViewDraft

/-- Nothing has been read. -/
def start : ViewDraft := ⟨default, none, none, none, none, none, none, false, none⟩

/-- The view that the repetition, if there is one, describes. -/
def repeated? (d : ViewDraft) : Except Malformation (Option ViewSpec) :=
  match d.repetition with
  | none => .ok none
  | some (row, column) => do
    let axes ← match row, column with
      | some rs, some cs => .ok (RepeatAxes.grid rs cs)
      | some rs, none => .ok (.rows rs)
      | none, some cs => .ok (.columns cs)
      | none, none => .error .repeatWithoutAxes
    match d.template with
    | some t => .ok (some (.repeated d.head axes t))
    | none => .error .repeatWithoutTemplate

/-- The view that the facet, if there is one, describes. -/
def faceted? (d : ViewDraft) : Except Malformation (Option ViewSpec) :=
  match d.facet, d.template with
  | false, _ => .ok none
  | true, some t => .ok (some (.faceted d.head t))
  | true, none => .error .facetWithoutTemplate

/-- The view that each arrangement describes. -/
def arrangements (d : ViewDraft) : Except Malformation (List ViewSpec) := do
  let repeated ← d.repeated?
  let faceted ← d.faceted?
  pure ((d.mark.map (.unit d.head)).toList ++
    (d.layer.map (.layered d.head)).toList ++
    (d.hconcat.map (.concatenated d.head)).toList ++
    (d.vconcat.map (.concatenated d.head)).toList ++
    (d.concat.map (.concatenated d.head)).toList ++
    repeated.toList ++ faceted.toList)

/-- The view that has been read.  It needs exactly one arrangement. -/
def finish (d : ViewDraft) : ViewSpec :=
  match d.arrangements with
  | .error fault => .malformed d.head fault
  | .ok [v] => v
  | .ok vs => .malformed d.head (.arrangements vs.length)

end ViewDraft

/-- A view, given how the views inside it are decoded. -/
def viewRecord (view : Json.Source → Except DecodeError ViewSpec)
    (views : Json.Source → Except DecodeError (List ViewSpec)) : Record ViewDraft where
  title := "ViewSpec"
  members :=
    ["name", "mark", "encoding", "selection", "layer", "hconcat", "vconcat", "concat", "repeat",
     "facet", "spec", "resolve", "config"]
  start := .start
  read := fun limit d k v =>
    match k with
    | "name" =>
      (asOption asString v).map fun name => { d with head := { d.head with name } }
    | "mark" => (asOption (decodeMark limit) v).map fun mark => { d with mark }
    | "encoding" =>
      (asTable named decodeChannel limit v).map fun encoding =>
        { d with head := { d.head with encoding } }
    | "selection" =>
      (asTable .ok decodeSelection limit v).map fun selections =>
        { d with head := { d.head with selections } }
    | "layer" => (asOption views v).map fun layer => { d with layer }
    | "hconcat" => (asOption views v).map fun hconcat => { d with hconcat }
    | "vconcat" => (asOption views v).map fun vconcat => { d with vconcat }
    | "concat" => (asOption views v).map fun concat => { d with concat }
    | "repeat" =>
      (asOption (repeatRecord.decode limit) v).map fun repetition => { d with repetition }
    | "facet" =>
      (asOption (facetRecord.decode limit) v).map fun f => { d with facet := f.isSome }
    | "spec" => (asOption view v).map fun template => { d with template }
    | "resolve" =>
      (resolveRecord.decode limit v).map fun resolve =>
        { d with head := { d.head with resolve } }
    | "config" =>
      (asOption (configRecord.decode limit) v).map fun c =>
        { d with head := { d.head with config := c.getD .none } }
    | _ => .ok d

mutual

/-- A view. -/
def decodeView : Nat → Json.Source → Except DecodeError ViewSpec
  | 0, v => ((viewRecord (·.refuse .map) (·.refuse .sequence)).decode 0 v).map ViewDraft.finish
  | limit + 1, v =>
    ((viewRecord (decodeView limit) (decodeViews limit)).decode (limit + 1) v).map
      ViewDraft.finish

/-- A list of views. -/
def decodeViews : Nat → Json.Source → Except DecodeError (List ViewSpec)
  | 0, v => asList (fun _ v => v.refuse .map) 0 v
  | limit + 1, v => asList (fun _ => decodeView limit) (limit + 1) v

end

end BrushLink
