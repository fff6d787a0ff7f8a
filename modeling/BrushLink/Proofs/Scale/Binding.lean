import BrushLink.Proofs.Scale.Placement
import BrushLink.Selection.Registry

/-! # Entering bindings in the table of scales

Bindings are entered one after the other, and a later one takes the place of an
earlier one on the same scale.  Nothing else is touched (`unbound_bindAll`), so a view
finds the same scale before and after (`lookup_bindAll_iff`), and what drives the scale
in the end is the last of the expressions entered for it (`get?_bindAll`).

It does not matter when bindings are entered.  A declaration makes the same component
on any table that bindings have left (`Declaration.parse_bindAll`), so entering all of
them in the end and entering each as soon as its scale is found come to the same
(`parseSelections_eq_threaded`).
-/
namespace BrushLink

/-- The scale without what drives it. -/
def Scale.unbound (s : Scale) : Scale := { s with binding := none }

/-! ## Entering bindings -/

/-- What bindings let drive the scale of a channel at a view, in order. -/
def expressionsAt (bs : List ScaleBinding) (o : ViewId) (c : Channel) : List String :=
  (bs.filter fun b => b.owner = o ∧ b.channel = c).map ScaleBinding.expression

theorem expressionsAt_append (bs bs' : List ScaleBinding) (o : ViewId) (c : Channel) :
    expressionsAt (bs ++ bs') o c = expressionsAt bs o c ++ expressionsAt bs' o c := by
  rw [expressionsAt, List.filter_append, List.map_append]
  rfl

theorem expressionsAt_flatMap {α : Type} (f : α → List ScaleBinding) (as : List α) (o : ViewId)
    (c : Channel) :
    expressionsAt (as.flatMap f) o c = as.flatMap fun a => expressionsAt (f a) o c := by
  induction as with
  | nil => rfl
  | cons a as ih => rw [List.flatMap_cons, expressionsAt_append, ih, List.flatMap_cons]

/-- The scale as bindings leave it. -/
def Scale.boundBy (bs : List ScaleBinding) (s : Scale) : Scale :=
  { s with binding := (expressionsAt bs s.owner s.channel).getLast?.or s.binding }

@[simp] theorem Scale.boundBy_owner (bs : List ScaleBinding) (s : Scale) :
    (s.boundBy bs).owner = s.owner := rfl

@[simp] theorem Scale.boundBy_channel (bs : List ScaleBinding) (s : Scale) :
    (s.boundBy bs).channel = s.channel := rfl

@[simp] theorem Scale.boundBy_fields (bs : List ScaleBinding) (s : Scale) :
    (s.boundBy bs).fields = s.fields := rfl

namespace ScaleTable
variable {t : ScaleTable}

/-- The table without what drives its scales. -/
def unbound (t : ScaleTable) : ScaleTable := ⟨t.scales.filterMap fun _ s => some s.unbound⟩

theorem unbound_bind (t : ScaleTable) (o : ViewId) (c : Channel) (e : String) :
    (t.bind o c e).unbound = t.unbound := by
  refine congrArg ScaleTable.mk (Table.ext_entries ?_)
  simp only [bind, Table.filterMap, Table.modify, List.filterMap_map]
  refine List.filterMap_congr fun entry _ => ?_
  simp only [Function.comp]
  split <;> rfl

theorem unbound_bindAll (t : ScaleTable) (bs : List ScaleBinding) :
    (t.bindAll bs).unbound = t.unbound := by
  induction bs generalizing t with
  | nil => rfl
  | cons b bs ih => exact (ih _).trans (t.unbound_bind _ _ _)

theorem get?_bind (t : ScaleTable) (o o' : ViewId) (c c' : Channel) (e : String) :
    (t.bind o c e).get? o' c' =
      if (o', c') = (o, c) then (t.get? o' c').map fun s => { s with binding := some e }
      else t.get? o' c' :=
  Table.get?_modify ..

theorem exists_get?_of_mem_toList {s : Scale} (h : s ∈ t.toList) :
    ∃ o c, t.get? o c = some s := by
  obtain ⟨⟨⟨o, c⟩, s⟩, he, rfl⟩ := List.mem_map.mp h
  exact ⟨o, c, Table.get?_eq_some_iff.mpr he⟩

/-- Every scale is known by its owner and its channel. -/
def Placed (t : ScaleTable) : Prop :=
  ∀ o c s, t.get? o c = some s → s.owner = o ∧ s.channel = c

/-- Of the bindings of a scale the last one is kept. -/
theorem get?_bindAll (h : t.Placed) (bs : List ScaleBinding) (o : ViewId) (c : Channel) :
    (t.bindAll bs).get? o c = (t.get? o c).map (Scale.boundBy bs) := by
  induction bs using List.reverseRecOn with
  | nil =>
    have hid : Scale.boundBy [] = id := by
      funext s
      simp [Scale.boundBy, expressionsAt]
    rw [hid, Option.map_id]
    rfl
  | append_singleton bs b ih =>
    have hlast : t.bindAll (bs ++ [b]) = (t.bindAll bs).bind b.owner b.channel b.expression := by
      rw [bindAll, List.foldl_append]
      rfl
    rw [hlast, get?_bind, ih]
    cases hs : t.get? o c with
    | none => simp
    | some s =>
      obtain ⟨rfl, rfl⟩ := h o c s hs
      by_cases hb : (s.owner, s.channel) = (b.owner, b.channel)
      · obtain ⟨ho, hc⟩ := Prod.mk.inj hb
        simp [Scale.boundBy, expressionsAt, ho, hc]
      · have hmiss : ¬ (b.owner = s.owner ∧ b.channel = s.channel) :=
          fun ⟨ho, hc⟩ => hb (by rw [ho, hc])
        simp [Scale.boundBy, expressionsAt, hb, hmiss]

theorem nearest?_bindAll (h : t.Placed) (bs : List ScaleBinding) (views : List ViewId)
    (c : Channel) :
    (t.bindAll bs).nearest? views c = (t.nearest? views c).map (Scale.boundBy bs) := by
  induction views with
  | nil => rfl
  | cons v views ih =>
    rw [nearest?, nearest?, List.findSome?_cons, List.findSome?_cons, get?_bindAll h]
    cases t.get? v c with
    | none => exact ih
    | some s => rfl

theorem owner_mem_of_nearest? (h : t.Placed) {views : List ViewId} {c : Channel} {s : Scale}
    (hs : t.nearest? views c = some s) :
    s.owner ∈ views ∧ s.channel = c ∧ t.get? s.owner c = some s := by
  obtain ⟨v, hv, hget⟩ := List.exists_of_findSome?_eq_some hs
  obtain ⟨rfl, hc⟩ := h v c s hget
  exact ⟨hv, hc, hget⟩

variable {tree : ViewTree}

theorem Placed.bindAll (h : t.Placed) (bs : List ScaleBinding) : (t.bindAll bs).Placed := by
  intro o c s hs
  rw [get?_bindAll h] at hs
  obtain ⟨s', hs', rfl⟩ := Option.map_eq_some_iff.mp hs
  exact h o c s' hs'

theorem lookup_eq_ok {v : ViewId} {c : Channel} {found : Option Scale} :
    t.lookup tree v c = .ok found ↔
      ∃ scope, tree.ancestors v = .ok scope ∧ t.nearest? scope c = found := by
  rw [lookup]
  cases tree.ancestors v with
  | error e =>
    constructor
    · intro he
      cases he
    · rintro ⟨_, he, _⟩
      cases he
  | ok scope =>
    constructor
    · intro he
      exact ⟨scope, rfl, Except.ok.inj he⟩
    · rintro ⟨scope', he, rfl⟩
      obtain rfl := Except.ok.inj he
      rfl

theorem lookup_of_ancestors {v : ViewId} {scope : List ViewId} (h : tree.ancestors v = .ok scope)
    (t : ScaleTable) (c : Channel) : t.lookup tree v c = .ok (t.nearest? scope c) :=
  lookup_eq_ok.mpr ⟨scope, h, rfl⟩

theorem channel_of_lookup (h : t.Placed) {v : ViewId} {c : Channel} {s : Scale}
    (hs : t.lookup tree v c = .ok (some s)) : s.channel = c := by
  obtain ⟨_, _, hnearest⟩ := lookup_eq_ok.mp hs
  exact (owner_mem_of_nearest? h hnearest).2.1

/-- A view finds a scale after bindings were entered exactly if it found it before. -/
theorem lookup_bindAll_iff (h : t.Placed) {bs : List ScaleBinding} {o v : ViewId} {c c' : Channel}
    {s : Scale} {scope : List ViewId} (hs : t.get? o c = some s)
    (hscope : tree.ancestors v = .ok scope) :
    (t.bindAll bs).lookup tree v c' = .ok (some (s.boundBy bs)) ↔
      c' = c ∧ t.nearest? scope c = some s := by
  rw [lookup_of_ancestors hscope, nearest?_bindAll h]
  obtain ⟨howner, hchannel⟩ := h o c s hs
  constructor
  · intro hfound
    obtain ⟨s', hs', he⟩ := Option.map_eq_some_iff.mp (Except.ok.inj hfound)
    obtain ⟨_, hc', hget⟩ := owner_mem_of_nearest? h hs'
    -- owner and channel are not touched, and they tell which scale it is
    have howner' : s'.owner = s.owner := by simpa using congrArg Scale.owner he
    have hchannel' : s'.channel = s.channel := by simpa using congrArg Scale.channel he
    have hcc : c' = c := hc'.symm.trans (hchannel'.trans hchannel)
    subst hcc
    rw [howner', howner, hs] at hget
    obtain rfl := Option.some.inj hget
    exact ⟨rfl, hs'⟩
  · rintro ⟨rfl, hnearest⟩
    rw [hnearest, Option.map_some]

/-- The table of a tree lists every scale under its owner and channel, and nothing
drives it. -/
theorem settled_ofTree (hw : tree.WellFormed) (hl : tree.UnitsAreLeaves) {o : ViewId} {c : Channel}
    {s : Scale} (hs : (ofTree tree).get? o c = some s) :
    s.owner = o ∧ s.channel = c ∧ s.binding = none := by
  rw [get?_ofTree hw hl] at hs
  obtain ⟨r, _, rfl⟩ := List.mem_map.mp (List.mem_of_getLast? hs)
  exact ⟨rfl, rfl, rfl⟩

theorem placed_ofTree (hw : tree.WellFormed) (hl : tree.UnitsAreLeaves) : (ofTree tree).Placed := by
  intro o c s hs
  obtain ⟨ho, hc, _⟩ := settled_ofTree hw hl hs
  exact ⟨ho, hc⟩

theorem unbound_ofTree (hw : tree.WellFormed) (hl : tree.UnitsAreLeaves) :
    (ofTree tree).unbound = ofTree tree := by
  refine congrArg ScaleTable.mk (Table.ext_entries ?_)
  rw [Table.filterMap]
  refine (List.filterMap_congr fun entry hentry => ?_).trans List.filterMap_some
  obtain ⟨⟨o, c⟩, s⟩ := entry
  obtain ⟨_, _, hbinding⟩ := settled_ofTree hw hl (Table.get?_eq_some_iff.mpr hentry)
  have hs : s.unbound = s := by
    rw [Scale.unbound, ← hbinding]
  simp [hs]

end ScaleTable

/-! ## Entering bindings on the way -/

theorem ScaleTable.bindAll_append (t : ScaleTable) (bs bs' : List ScaleBinding) :
    t.bindAll (bs ++ bs') = (t.bindAll bs).bindAll bs' :=
  List.foldl_append

/-- What a declaration has done to the table, target by target. -/
structure BindingLoop where
  table : ScaleTable
  /-- The channels whose scales are driven, each once. -/
  driven : List Channel
  warnings : List Warning

namespace Declaration
variable {t : ScaleTable} {scope : List ViewId} {d : Declaration}

/-- Let the next target drive its scale in the table as it is now, or warn. -/
def bindNext (scope : List ViewId) (d : Declaration) (s : BindingLoop) (target : Channel × Field) :
    BindingLoop :=
  match drivable? s.table scope target.1 with
  | some scale =>
    { s with
      table := s.table.bind scale.owner target.1 (selectionEntry d.name target.2)
      driven := if s.driven.contains target.1 then s.driven else s.driven ++ [target.1] }
  | none => { s with warnings := s.warnings ++ [d.warning (.scaleNotContinuous target.1)] }

/-- Let all targets of a declaration drive their scales, one after the other. -/
def bindTargets (scope : List ViewId) (t : ScaleTable) (d : Declaration) : BindingLoop :=
  let unable := d.selection.isScaleBound && !d.isGlobalInterval
  d.targets.foldl (d.bindNext scope)
    ⟨t, [], if unable then [d.warning .cannotDriveScales] else []⟩

/-- Turn a declaration into a component, letting its targets drive their scales on
the way. -/
def parseOnto (tree : ViewTree) (t : ScaleTable) (d : Declaration) :
    ScaleTable × Diagnosed Component :=
  if d.kept.isEmpty then (t, ⟨.error (.emptyProjection d.name d.view), d.captureWarnings⟩)
  else
    match tree.ancestors d.unit, sharesOuterScope tree d.unit with
    | .ok scope, .ok outer =>
      let s := d.bindTargets scope t
      let component := { d.component t scope outer with
        scales := s.driven
        pushOuter := d.isGlobalInterval && !s.driven.isEmpty && !outer }
      (s.table, ⟨.ok component, d.captureWarnings ++ s.warnings⟩)
    | .error fault, _ => (t, ⟨.error (.outsideTree fault), d.captureWarnings⟩)
    | _, .error fault => (t, ⟨.error (.outsideTree fault), d.captureWarnings⟩)

/-- Bindings do not touch the type of a scale. -/
theorem drivable?_bindAll (h : t.Placed) (bs : List ScaleBinding) (scope : List ViewId)
    (c : Channel) :
    drivable? (t.bindAll bs) scope c = (drivable? t scope c).map (Scale.boundBy bs) := by
  unfold drivable?
  rw [ScaleTable.nearest?_bindAll h]
  cases t.nearest? scope c with
  | none => rfl
  | some s => cases hs : s.type.canBeDriven <;> simp [Scale.boundBy, Option.filter, hs]

/-- Bindings make no difference to what a declaration comes to. -/
theorem parse_bindAll (h : t.Placed) (bs : List ScaleBinding) (tree : ViewTree) (d : Declaration) :
    d.parse tree (t.bindAll bs) = d.parse tree t := by
  have hbindings : ∀ scope, d.bindings (t.bindAll bs) scope = d.bindings t scope := by
    intro scope
    simp only [bindings, drivable?_bindAll h, Option.map_map]
    rfl
  have hdriven : ∀ scope, d.driven (t.bindAll bs) scope = d.driven t scope := by
    intro scope
    simp only [driven, drivable?_bindAll h, Option.isSome_map]
  have hwarnings : ∀ scope, d.bindingWarnings (t.bindAll bs) scope = d.bindingWarnings t scope := by
    intro scope
    simp only [bindingWarnings, drivable?_bindAll h, Option.isNone_map]
  simp only [parse, component, hbindings, hdriven, hwarnings]

/-- The loop over targets enters the bindings that the table gives at its start. -/
theorem foldl_bindNext (ts : List (Channel × Field)) (h : t.Placed) (cs : List Channel)
    (ws : List Warning) :
    ts.foldl (d.bindNext scope) ⟨t, cs, ws⟩ =
      ⟨t.bindAll (ts.filterMap fun target => (drivable? t scope target.1).map
          fun scale => ⟨scale.owner, target.1, selectionEntry d.name target.2⟩),
        (ts.filter fun target => (drivable? t scope target.1).isSome).foldl
          (fun cs target => if cs.contains target.1 then cs else cs ++ [target.1]) cs,
        ws ++ (ts.filter fun target => (drivable? t scope target.1).isNone).map
          fun target => d.warning (.scaleNotContinuous target.1)⟩ := by
  induction ts generalizing t cs ws with
  | nil => simp [ScaleTable.bindAll]
  | cons target ts ih =>
    rw [List.foldl_cons, bindNext]
    cases hs : drivable? t scope target.1 with
    | none =>
      dsimp only
      rw [ih h]
      simp [hs]
    | some scale =>
      let b : ScaleBinding := ⟨scale.owner, target.1, selectionEntry d.name target.2⟩
      change ts.foldl (d.bindNext scope) ⟨t.bindAll [b], _, _⟩ = _
      rw [ih (h.bindAll [b])]
      -- the rest of the loop finds on the new table what it would have found on the old
      simp only [drivable?_bindAll h, Option.isSome_map, Option.isNone_map, Option.map_map,
        ← ScaleTable.bindAll_append]
      simp [hs, b, Function.comp_def]

theorem bindTargets_eq (h : t.Placed) (scope : List ViewId) (d : Declaration) :
    d.bindTargets scope t =
      ⟨t.bindAll (d.bindings t scope), d.driven t scope, d.bindingWarnings t scope⟩ := by
  rw [bindTargets, foldl_bindNext d.targets h, bindingWarnings]
  by_cases hunable : (d.selection.isScaleBound && !d.isGlobalInterval) = true
  · have hlocal : d.isGlobalInterval = false := by
      simpa using (Bool.and_eq_true_iff.mp hunable).2
    have hnone : d.targets = [] := by
      rw [targets, hlocal, Bool.and_false, if_neg Bool.false_ne_true]
    simp [bindings, driven, hunable, hnone]
  · simp [bindings, driven, hunable]

/-- One declaration: its bindings may be entered on the way or afterwards. -/
theorem parseOnto_eq (h : t.Placed) (tree : ViewTree) (d : Declaration) :
    d.parseOnto tree t =
      match (d.parse tree t).result with
      | .ok p => (t.bindAll p.bindings, ⟨.ok p.component, (d.parse tree t).warnings⟩)
      | .error e => (t, ⟨.error e, (d.parse tree t).warnings⟩) := by
  unfold parseOnto parse
  by_cases hkept : d.kept.isEmpty = true
  · simp only [if_pos hkept]
  · simp only [if_neg hkept, bindTargets_eq h]
    cases tree.ancestors d.unit with
    | error fault => rfl
    | ok scope => cases sharesOuterScope tree d.unit <;> rfl

end Declaration

/-- What comes of declarations that hand the table on to each other. -/
structure ThreadedProgress where
  table : ScaleTable
  components : List Component
  warnings : List Warning
  failure : Option CompileError

/-- Turn declarations into components, each on the table that the one before it has
left, up to the first that fails. -/
def ThreadedProgress.run (tree : ViewTree) (config : SelectionConfig) :
    ScaleTable → List Declaration → ThreadedProgress
  | t, [] => ⟨t, [], [], none⟩
  | t, d :: ds =>
    let (t', step) := (d.filled config).parseOnto tree t
    match step.result with
    | .error e => ⟨t', [], step.warnings, some e⟩
    | .ok k =>
      let rest := run tree config t' ds
      ⟨rest.table, k :: rest.components, step.warnings ++ rest.warnings, rest.failure⟩

theorem ParseProgress.run_bindAll {t : ScaleTable} (h : t.Placed) (bs : List ScaleBinding)
    (tree : ViewTree) (config : SelectionConfig) (ds : List Declaration) :
    run tree config (t.bindAll bs) ds = run tree config t ds := by
  induction ds with
  | nil => rfl
  | cons d ds ih => rw [run, run, ih, Declaration.parse_bindAll h]

/-- All declarations: their bindings may be entered on the way or in the end. -/
theorem ThreadedProgress.run_eq {t : ScaleTable} (h : t.Placed) (tree : ViewTree)
    (config : SelectionConfig) (ds : List Declaration) :
    run tree config t ds =
      let p := ParseProgress.run tree config t ds
      ⟨p.bound t, p.components, p.warnings, p.failure⟩ := by
  induction ds generalizing t with
  | nil => rfl
  | cons d ds ih =>
    rw [run, ParseProgress.run, Declaration.parseOnto_eq h]
    cases ((d.filled config).parse tree t).result with
    | error e => rfl
    | ok p =>
      dsimp only
      rw [ih (h.bindAll _), ParseProgress.run_bindAll h]
      simp [ParseProgress.bound, ParseProgress.components, ScaleTable.bindAll_append]

/-- Collect the selections of a tree and turn them into components, each of which
lets its targets drive their scales at once. -/
def parseSelectionsThreaded (tree : ViewTree) (config : SelectionConfig) (scales : ScaleTable) :
    Diagnosed (ScaleTable × Registry) := do
  let registry ← Diagnosed.ofExcept (Registry.collect tree config)
  let progress := ThreadedProgress.run tree config scales tree.declarations
  Diagnosed.warn progress.warnings
  match progress.failure with
  | some e => Diagnosed.fail e
  | none => pure (progress.table, progress.components.foldl Registry.attach registry)

/-- **When bindings are entered makes no difference.**  The table, the components, the
warnings and the failure, if any, are the same whether bindings are entered in the end
or each as soon as its scale is found. -/
theorem parseSelections_eq_threaded {scales : ScaleTable} (h : scales.Placed) (tree : ViewTree)
    (config : SelectionConfig) :
    parseSelections tree config scales = parseSelectionsThreaded tree config scales := by
  rw [parseSelectionsThreaded, ThreadedProgress.run_eq h]
  rfl

end BrushLink
