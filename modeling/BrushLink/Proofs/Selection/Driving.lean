import BrushLink.Proofs.Scale.Binding
import BrushLink.Proofs.Selection.Parsing

/-! # What drives a scale

Bindings come from inside every selection of every unit view.  Read off the finished
table, this comes to a rule about the components alone: a scale is driven by the last
projection that aims at it (`binding_eq_getLast?`).  A projection aims at the scale of
its own channel and, on a diagonal view, at that of the opposite position.

Components record for themselves which channels they drive; they do so exactly where
they have entered a binding (`mem_scales_iff`, `binding_isSome_iff`).
-/
namespace BrushLink

/-! ## Projections and the scales they aim at -/

/-- Whether a projection aims at the scale of a channel: it captures through the
channel or, on a diagonal view, through the opposite position. -/
def Projection.aimsAt (p : Projection) (diagonal : Bool) (c : Channel) : Bool :=
  p.channel = some c || diagonal && p.channel.bind Channel.opposite = some c

theorem Projection.aimsAt_iff {p : Projection} {diagonal : Bool} {c : Channel} :
    p.aimsAt diagonal c = true ↔
      p.channel = some c ∨ diagonal = true ∧ ∃ o, p.channel = some o ∧ o.opposite = some c := by
  rw [aimsAt, Bool.or_eq_true, Bool.and_eq_true, decide_eq_true_eq, decide_eq_true_eq,
    Option.bind_eq_some_iff]

theorem Channel.opposite_ne {c o : Channel} (h : c.opposite = some o) : c ≠ o := by
  rintro rfl
  cases c <;> cases h

/-- Of the scales that projections want to drive, those of one channel are wanted by
the projections that aim at it. -/
theorem filter_drivenChannels (diagonal : Bool) (ps : List Projection) (c : Channel) :
    (drivenChannels diagonal ps).filter (fun t => t.1 = c) =
      (ps.filter fun p => p.aimsAt diagonal c).map fun p => (c, p.field) := by
  induction ps with
  | nil => rfl
  | cons p ps ih =>
    rw [drivenChannels, List.flatMap_cons, List.filter_append, ← drivenChannels, ih]
    obtain ⟨channel, f⟩ := p
    cases channel with
    | none => simp [Projection.aimsAt]
    | some pc =>
      by_cases hc : pc = c
      · subst hc
        -- the opposite position is another channel
        have hmiss : (pc.opposite.toList.map fun o => (o, f)).filter (fun t => t.1 = pc) = [] := by
          rw [List.filter_eq_nil_iff]
          intro t ht hpc
          obtain ⟨o, ho, rfl⟩ := List.mem_map.mp ht
          exact Channel.opposite_ne (Option.mem_toList.mp ho) (of_decide_eq_true hpc).symm
        cases diagonal <;> simp [Projection.aimsAt, hmiss]
      · cases diagonal with
        | false => simp [Projection.aimsAt, hc]
        | true =>
          cases ho : pc.opposite with
          | none => simp [Projection.aimsAt, hc, ho]
          | some o =>
            by_cases hoc : o = c
            · simp [Projection.aimsAt, hc, ho, hoc]
            · simp [Projection.aimsAt, hc, ho, hoc]

namespace Declaration
variable {d : Declaration} {scales : ScaleTable} {scope : List ViewId} {c : Channel}

theorem targets_of_bound (h : d.selection.isScaleBound && d.isGlobalInterval) :
    d.targets = drivenChannels d.content.isDiagonal d.kept := if_pos h

theorem targets_of_not_bound (h : ¬ (d.selection.isScaleBound && d.isGlobalInterval)) :
    d.targets = [] := if_neg h

/-- Collecting channels without repetitions keeps all of them. -/
theorem mem_foldl_channels (ts : List (Channel × Field)) (cs : List Channel) :
    c ∈ ts.foldl (fun cs t => if cs.contains t.1 then cs else cs ++ [t.1]) cs ↔
      c ∈ cs ∨ c ∈ ts.map Prod.fst := by
  induction ts generalizing cs with
  | nil => simp
  | cons t ts ih =>
    rw [List.foldl_cons, ih, List.map_cons, List.mem_cons]
    by_cases ht : t.1 ∈ cs
    · rw [if_pos (List.contains_iff_mem.mpr ht)]
      constructor
      · exact Or.imp_right Or.inr
      · rintro (h | rfl | h)
        · exact Or.inl h
        · exact Or.inl ht
        · exact Or.inr h
    · rw [if_neg (by rwa [List.contains_iff_mem]), List.mem_append, List.mem_singleton, or_assoc]

/-- Driven are the channels of the targets whose scale can be driven. -/
theorem mem_driven :
    c ∈ d.driven scales scope ↔ (∃ f, (c, f) ∈ d.targets) ∧ (drivable? scales scope c).isSome := by
  rw [driven, mem_foldl_channels]
  constructor
  · rintro (h | h)
    · cases h
    · obtain ⟨⟨c', f⟩, ht, rfl⟩ := List.mem_map.mp h
      obtain ⟨htarget, hsome⟩ := List.mem_filter.mp ht
      exact ⟨⟨f, htarget⟩, hsome⟩
  · rintro ⟨⟨f, htarget⟩, hsome⟩
    exact Or.inr (List.mem_map.mpr ⟨(c, f), List.mem_filter.mpr ⟨htarget, hsome⟩, rfl⟩)

theorem drivable?_eq_some {s : Scale} :
    drivable? scales scope c = some s ↔
      scales.nearest? scope c = some s ∧ s.type.canBeDriven = true := by
  rw [drivable?, Option.filter_eq_some_iff]

/-- The bindings for one scale: those of the targets on its channel, if the view finds
the scale there and it can be driven. -/
theorem expressionsAt_bindings (scales : ScaleTable) (scope : List ViewId) (d : Declaration)
    (o : ViewId) (c : Channel) :
    expressionsAt (d.bindings scales scope) o c =
      if (drivable? scales scope c).any fun s => s.owner = o then
        (d.targets.filter fun t => t.1 = c).map fun t => selectionEntry d.name t.2
      else [] := by
  rw [bindings]
  induction d.targets with
  | nil => simp [expressionsAt]
  | cons t ts ih =>
    rw [List.filterMap_cons]
    by_cases hc : t.1 = c
    · subst hc
      rw [List.filter_cons_of_pos (by simp), List.map_cons]
      cases hdrivable : drivable? scales scope t.1 with
      | none =>
        rw [hdrivable] at ih
        exact ih
      | some s =>
        rw [hdrivable] at ih
        by_cases ho : s.owner = o
        · simpa [expressionsAt, ho] using ih
        · simpa [expressionsAt, ho] using ih
    · rw [List.filter_cons_of_neg (by simpa using hc), ← ih]
      cases drivable? scales scope t.1 with
      | none => rfl
      | some s => simp [expressionsAt, hc]

/-- The same, said of the projections: those that aim at the channel drive the scale,
if the channel is driven and the view finds the scale there. -/
theorem expressionsAt_eq_aims (hplaced : scales.Placed) {s : Scale} {o : ViewId}
    (hs : scales.get? o c = some s) :
    expressionsAt (d.bindings scales scope) o c =
      if c ∈ d.driven scales scope ∧ scales.nearest? scope c = some s then
        (d.kept.filter fun p => p.aimsAt d.content.isDiagonal c).map fun p =>
          selectionEntry d.name p.field
      else [] := by
  rw [expressionsAt_bindings]
  by_cases hbound : d.selection.isScaleBound && d.isGlobalInterval
  · have htargets : (d.targets.filter fun t => t.1 = c) =
        (d.kept.filter fun p => p.aimsAt d.content.isDiagonal c).map fun p => (c, p.field) := by
      rw [targets_of_bound hbound, filter_drivenChannels]
    by_cases hdriven : c ∈ d.driven scales scope ∧ scales.nearest? scope c = some s
    · obtain ⟨hc, hnearest⟩ := hdriven
      obtain ⟨s', hs'⟩ := Option.isSome_iff_exists.mp (mem_driven.mp hc).2
      obtain rfl : s' = s :=
        Option.some.inj ((drivable?_eq_some.mp hs').1.symm.trans hnearest)
      have howner : s'.owner = o := (hplaced o c s' hs).1
      rw [if_pos (by simp [hs', howner]), if_pos ⟨hc, hnearest⟩, htargets, List.map_map]
      rfl
    · rw [if_neg hdriven]
      split
      · rename_i hany
        -- the view finds this very scale, so there is no target on the channel
        obtain ⟨s', hs', howner⟩ := (Option.any_eq_true _ _).mp hany
        have hnearest := (drivable?_eq_some.mp hs').1
        obtain ⟨_, _, hget⟩ := ScaleTable.owner_mem_of_nearest? hplaced hnearest
        rw [of_decide_eq_true howner, hs] at hget
        obtain rfl := Option.some.inj hget
        rw [List.map_eq_nil_iff, List.filter_eq_nil_iff]
        rintro ⟨c', f⟩ ht hc
        obtain rfl : c' = c := of_decide_eq_true hc
        exact hdriven ⟨mem_driven.mpr ⟨⟨f, ht⟩, Option.isSome_of_eq_some hs'⟩, hnearest⟩
      · rfl
  · have hnone : ¬ (c ∈ d.driven scales scope ∧ scales.nearest? scope c = some s) := by
      rintro ⟨hc, _⟩
      obtain ⟨⟨f, hf⟩, _⟩ := mem_driven.mp hc
      rw [targets_of_not_bound hbound] at hf
      cases hf
    rw [targets_of_not_bound hbound, if_neg hnone]
    split <;> rfl

end Declaration

/-! ## What drives the scales of a tree -/

namespace ViewTree

/-- Whether a view is a unit view whose row and column repeat the same field. -/
def isDiagonal (t : ViewTree) (v : ViewId) : Bool := (t.unit? v).any UnitView.isDiagonal

theorem isDiagonal_of_unit? {t : ViewTree} {v : ViewId} {u : UnitView} (h : t.unit? v = some u) :
    t.isDiagonal v = u.isDiagonal := by
  rw [isDiagonal, h, Option.any_some]

theorem unit?_of_declaration {t : ViewTree} (hw : t.WellFormed) {d : Declaration}
    (hd : d ∈ t.declarations) : t.unit? d.unit = some d.content :=
  (exists_mem_units hw).mp ⟨d.view, (exists_unit_of_declaration hd).1⟩

end ViewTree

namespace Component
variable {tree : ViewTree} {scales : ScaleTable} {k : Component} {s : Scale}

/-- Whether a component drives a scale: its view finds the scale under one of the
driven channels. -/
def drivesScale (tree : ViewTree) (scales : ScaleTable) (k : Component) (s : Scale) : Bool :=
  k.scales.any fun c => ((scales.lookup tree k.unit c).toOption).any fun found => found = some s

theorem drivesScale_iff :
    k.drivesScale tree scales s = true ↔
      ∃ c ∈ k.scales, scales.lookup tree k.unit c = .ok (some s) := by
  rw [drivesScale, List.any_eq_true]
  refine exists_congr fun c => and_congr_right fun _ => ?_
  cases scales.lookup tree k.unit c with
  | error e => simp [Except.toOption]
  | ok found => simp [Except.toOption]

/-- The projections through which a component drives a scale, in order. -/
def aims (tree : ViewTree) (scales : ScaleTable) (s : Scale) (k : Component) : List Projection :=
  if k.drivesScale tree scales s then
    k.projections.filter fun p => p.aimsAt (tree.isDiagonal k.unit) s.channel
  else []

theorem mem_aims {p : Projection} :
    p ∈ k.aims tree scales s ↔ k.drivesScale tree scales s = true ∧ p ∈ k.projections ∧
      p.aimsAt (tree.isDiagonal k.unit) s.channel = true := by
  rw [aims]
  split
  · rename_i hdrives
    rw [List.mem_filter]
    exact ⟨fun hp => ⟨hdrives, hp⟩, fun hp => hp.2⟩
  · rename_i hdrives
    exact ⟨nofun, fun hp => absurd hp.1 hdrives⟩

end Component

section Parsed
variable {spec : ViewSpec} {tree : ViewTree} {config : SelectionConfig} {scales : ScaleTable}
  {registry : Registry} {o : ViewId} {c : Channel} {s : Scale}

/-- What a declaration enters for a scale is what the projections of its component that
drive the scale say. -/
theorem expressionsAt_eq_aims_component {d : Declaration} {scope : List ViewId} {outer : Bool}
    {bs : List ScaleBinding} {t : ScaleTable} (hplaced : t.Placed) (hs : t.get? o c = some s)
    (hunit : tree.unit? d.unit = some d.content) (hscope : tree.ancestors d.unit = .ok scope) :
    expressionsAt (d.bindings t scope) o c =
      ((d.component t scope outer).aims tree (t.bindAll bs) (s.boundBy bs)).map fun p =>
        selectionEntry d.name p.field := by
  have hchannel : s.channel = c := (hplaced o c s hs).2
  have hdiagonal := ViewTree.isDiagonal_of_unit? hunit
  have hdrives : (d.component t scope outer).drivesScale tree (t.bindAll bs) (s.boundBy bs) = true ↔
      c ∈ d.driven t scope ∧ t.nearest? scope c = some s := by
    rw [Component.drivesScale_iff]
    constructor
    · rintro ⟨c', hc', hfound⟩
      obtain ⟨rfl, hnearest⟩ := (ScaleTable.lookup_bindAll_iff hplaced hs hscope).mp hfound
      exact ⟨hc', hnearest⟩
    · rintro ⟨hc, hnearest⟩
      exact ⟨c, hc, (ScaleTable.lookup_bindAll_iff hplaced hs hscope).mpr ⟨rfl, hnearest⟩⟩
  rw [Declaration.expressionsAt_eq_aims hplaced hs, Component.aims]
  by_cases hd : c ∈ d.driven t scope ∧ t.nearest? scope c = some s
  · rw [if_pos hd, if_pos (hdrives.mpr hd), ← hdiagonal, ← hchannel]
    rfl
  · rw [if_neg hd, if_neg (fun h => hd (hdrives.mp h)), List.map_nil]

/-- **The last projection that aims at a scale drives it.** -/
theorem binding_eq_getLast? (htree : ViewTree.ofSpec spec = .ok tree)
    (h : (parseSelections tree config (.ofTree tree)).result = .ok (scales, registry))
    (hs : scales.get? o c = some s) :
    s.binding = (registry.components.flatMap fun k =>
      (k.aims tree scales s).map fun p => selectionEntry k.name p.field).getLast? := by
  obtain ⟨hw, hl⟩ := ViewTree.ofSpec_wellFormed htree
  have hplaced := ScaleTable.placed_ofTree hw hl
  obtain ⟨parsed, hparsed, rfl, hcomponents⟩ := parseSelections_ok h
  rw [ScaleTable.get?_bindAll hplaced] at hs
  obtain ⟨s₀, hs₀, rfl⟩ := Option.map_eq_some_iff.mp hs
  obtain ⟨howner, hchannel, hbinding⟩ := ScaleTable.settled_ofTree hw hl hs₀
  have hexpressions : ∀ p ∈ parsed, expressionsAt p.bindings o c =
      (p.component.aims tree (ScaleTable.bindAll (.ofTree tree)
        (parsed.flatMap ParsedSelection.bindings))
        (s₀.boundBy (parsed.flatMap ParsedSelection.bindings))).map fun q =>
          selectionEntry p.component.name q.field := by
    intro p hp
    obtain ⟨d, hd, _, scope, outer, hscope, _, rfl⟩ := exists_declaration hparsed hp
    have hunit := ViewTree.unit?_of_declaration hw hd
    exact expressionsAt_eq_aims_component (d := d.filled config) hplaced hs₀ hunit hscope
  rw [hcomponents, List.flatMap_map, ← List.flatMap_congr hexpressions, ← expressionsAt_flatMap,
    Scale.boundBy, howner, hchannel, hbinding, Option.or_none]

/-- The selection asks to drive scales and is of the kind that can. -/
def Component.BoundToScales (k : Component) : Prop :=
  k.type = .interval ∧ k.resolve = .global ∧ k.bind = some .scales

theorem Declaration.boundToScales_iff {d : Declaration} {t : ScaleTable} {scope : List ViewId}
    {outer : Bool} :
    (d.component t scope outer).BoundToScales ↔
      (d.selection.isScaleBound && d.isGlobalInterval) = true := by
  have hbind : d.selection.isScaleBound = true ↔ d.selection.settings.bind = some .scales := by
    rw [SelectionDef.isScaleBound]
    split
    · exact ⟨fun _ => ‹_›, fun _ => rfl⟩
    · rename_i hne
      exact ⟨nofun, fun he => absurd he hne⟩
  rw [Bool.and_eq_true, hbind, isGlobalInterval, Bool.and_eq_true, decide_eq_true_eq,
    decide_eq_true_eq]
  constructor
  · rintro ⟨htype, hresolve, hscales⟩
    exact ⟨hscales, htype, hresolve⟩
  · rintro ⟨hscales, htype, hresolve⟩
    exact ⟨htype, hresolve, hscales⟩

theorem Declaration.exists_target_iff {d : Declaration} :
    (∃ f, (c, f) ∈ d.targets) ↔ (d.selection.isScaleBound && d.isGlobalInterval) = true ∧
      ∃ p ∈ d.kept, p.aimsAt d.content.isDiagonal c = true := by
  by_cases hbound : d.selection.isScaleBound && d.isGlobalInterval
  · have hmem : ∀ f, (c, f) ∈ d.targets ↔
        (c, f) ∈ (d.kept.filter fun p => p.aimsAt d.content.isDiagonal c).map fun p =>
          (c, p.field) := by
      intro f
      rw [targets_of_bound hbound, ← filter_drivenChannels, List.mem_filter]
      simp
    constructor
    · rintro ⟨f, hf⟩
      obtain ⟨p, hp, _⟩ := List.mem_map.mp ((hmem f).mp hf)
      exact ⟨hbound, p, List.mem_filter.mp hp⟩
    · rintro ⟨_, p, hp, haims⟩
      exact ⟨p.field, (hmem _).mpr (List.mem_map.mpr ⟨p, List.mem_filter.mpr ⟨hp, haims⟩, rfl⟩)⟩
  · rw [targets_of_not_bound hbound]
    constructor
    · rintro ⟨f, hf⟩
      cases hf
    · rintro ⟨h, _⟩
      exact absurd h hbound

/-- A scale keeps its type when bindings are entered, so it can be driven afterwards exactly if
it could be driven before. -/
theorem drivable?_isSome_iff (htree : ViewTree.ofSpec spec = .ok tree)
    (h : (parseSelections tree config (.ofTree tree)).result = .ok (scales, registry))
    {v : ViewId} {scope : List ViewId} (hscope : tree.ancestors v = .ok scope) :
    (Declaration.drivable? (.ofTree tree) scope c).isSome = true ↔
      ∃ s, scales.lookup tree v c = .ok (some s) ∧ s.type.canBeDriven = true := by
  obtain ⟨hw, hl⟩ := ViewTree.ofSpec_wellFormed htree
  obtain ⟨_, _, rfl, _⟩ := parseSelections_ok h
  rw [ScaleTable.lookup_of_ancestors hscope,
    ScaleTable.nearest?_bindAll (ScaleTable.placed_ofTree hw hl)]
  constructor
  · intro hsome
    obtain ⟨s, hs⟩ := Option.isSome_iff_exists.mp hsome
    obtain ⟨hnearest, htype⟩ := Declaration.drivable?_eq_some.mp hs
    exact ⟨s.boundBy _, by rw [hnearest, Option.map_some], htype⟩
  · rintro ⟨s, hs, htype⟩
    obtain ⟨s', hs', rfl⟩ := Option.map_eq_some_iff.mp (Except.ok.inj hs)
    exact Option.isSome_of_eq_some (Declaration.drivable?_eq_some.mpr ⟨hs', htype⟩)

/-- The channels that a component drives: those that one of its projections aims at and
whose scale can be driven, if the selection is bound to scales at all. -/
theorem mem_scales_iff (htree : ViewTree.ofSpec spec = .ok tree)
    (h : (parseSelections tree config (.ofTree tree)).result = .ok (scales, registry))
    {k : Component} (hk : k ∈ registry.components) :
    c ∈ k.scales ↔ k.BoundToScales ∧
      (∃ p ∈ k.projections, p.aimsAt (tree.isDiagonal k.unit) c = true) ∧
      ∃ s, scales.lookup tree k.unit c = .ok (some s) ∧ s.type.canBeDriven = true := by
  have hw := (ViewTree.ofSpec_wellFormed htree).1
  obtain ⟨d, hd, _, scope, outer, hscope, _, rfl⟩ := exists_declaration_of_component h hk
  have hunit := ViewTree.unit?_of_declaration hw hd
  have hdiagonal : tree.isDiagonal (d.filled config).unit = (d.filled config).content.isDiagonal :=
    ViewTree.isDiagonal_of_unit? hunit
  rw [Declaration.boundToScales_iff, ← and_assoc]
  refine Declaration.mem_driven.trans (and_congr (Declaration.exists_target_iff.trans ?_)
    (drivable?_isSome_iff htree h hscope))
  rw [← hdiagonal]
  exact Iff.rfl

theorem placed_of_parse (htree : ViewTree.ofSpec spec = .ok tree)
    (h : (parseSelections tree config (.ofTree tree)).result = .ok (scales, registry)) :
    scales.Placed := by
  obtain ⟨hw, hl⟩ := ViewTree.ofSpec_wellFormed htree
  obtain ⟨_, _, rfl, _⟩ := parseSelections_ok h
  exact (ScaleTable.placed_ofTree hw hl).bindAll _

/-- What drives a scale is said by a projection that aims at it. -/
theorem exists_aim_of_binding (htree : ViewTree.ofSpec spec = .ok tree)
    (h : (parseSelections tree config (.ofTree tree)).result = .ok (scales, registry))
    (hs : scales.get? o c = some s) {e : String} (he : s.binding = some e) :
    ∃ k ∈ registry.components, ∃ p ∈ k.aims tree scales s, e = selectionEntry k.name p.field := by
  rw [binding_eq_getLast? htree h hs] at he
  obtain ⟨k, hk, hmem⟩ := List.mem_flatMap.mp (List.mem_of_getLast? he)
  obtain ⟨p, hp, rfl⟩ := List.mem_map.mp hmem
  exact ⟨k, hk, p, hp, rfl⟩

theorem Compilation.exists_component_of_binding {c : Compilation}
    (h : (ofSpec spec).result = .ok c) {ch : Channel} {e : String}
    (hs : c.scales.get? o ch = some s) (he : s.binding = some e) :
    ∃ k ∈ c.registry.components, ∃ f ∈ k.projections.map Projection.field,
      e = selectionEntry k.name f := by
  obtain ⟨htree, hparse⟩ := ofSpec_steps h
  obtain ⟨k, hk, p, hp, rfl⟩ := exists_aim_of_binding htree hparse hs he
  exact ⟨k, hk, p.field, List.mem_map_of_mem (Component.mem_aims.mp hp).2.1, rfl⟩

/-- A scale is driven exactly if a component drives it. -/
theorem binding_isSome_iff (htree : ViewTree.ofSpec spec = .ok tree)
    (h : (parseSelections tree config (.ofTree tree)).result = .ok (scales, registry))
    (hs : scales.get? o c = some s) :
    s.binding.isSome = true ↔
      ∃ k ∈ registry.components, k.drivesScale tree scales s = true := by
  constructor
  · intro hsome
    obtain ⟨e, he⟩ := Option.isSome_iff_exists.mp hsome
    obtain ⟨k, hk, p, hp, _⟩ := exists_aim_of_binding htree h hs he
    exact ⟨k, hk, (Component.mem_aims.mp hp).1⟩
  · rintro ⟨k, hk, hdrives⟩
    obtain ⟨c', hc', hfound⟩ := Component.drivesScale_iff.mp hdrives
    obtain rfl := ScaleTable.channel_of_lookup (placed_of_parse htree h) hfound
    obtain ⟨_, ⟨p, hp, haims⟩, _⟩ := (mem_scales_iff htree h hk).mp hc'
    have hmem : selectionEntry k.name p.field ∈ registry.components.flatMap fun k =>
        (k.aims tree scales s).map fun p => selectionEntry k.name p.field :=
      List.mem_flatMap.mpr
        ⟨k, hk, List.mem_map.mpr ⟨p, Component.mem_aims.mpr ⟨hdrives, hp, haims⟩, rfl⟩⟩
    rw [binding_eq_getLast? htree h hs, List.getLast?_isSome]
    exact List.ne_nil_of_mem hmem

theorem ScaleType.canBeDriven_iff {t : ScaleType} :
    t.canBeDriven ↔ t ∉ [binLinear, binOrdinal, ordinal, band, point] := by
  cases t <;> decide

/-- **Selections touch scales only by driving them, and components say which.**  After
the selections of a tree are parsed, the scales are those of the tree but for what
drives them, and they are the same if each binding is entered as soon as its scale is
found.  A scale is driven exactly if a unit view has a component that finds it under a
channel it drives; and then it is of a type that can be driven, neither discrete nor
binned, and what drives it is `name["field"]` for the name and a captured field of such
a component, a globally resolved interval that is bound to scales. -/
theorem parseSelections_bindings (htree : ViewTree.ofSpec spec = .ok tree)
    (h : (parseSelections tree config (.ofTree tree)).result = .ok (scales, registry)) :
    scales.unbound = .ofTree tree ∧
    (parseSelectionsThreaded tree config (.ofTree tree)).result = .ok (scales, registry) ∧
    ∀ o c s, scales.get? o c = some s →
      s.owner = o ∧ s.channel = c ∧
      (s.binding.isSome ↔ ∃ u, (tree.unit? u).isSome ∧ ∃ k ∈ registry.componentsOf u,
        ∃ c' ∈ k.scales, scales.lookup tree u c' = .ok (some s)) ∧
      ∀ e, s.binding = some e →
        s.type.canBeDriven ∧ s.type ∉ [.binLinear, .binOrdinal, .ordinal, .band, .point] ∧
        ∃ u, (tree.unit? u).isSome ∧ ∃ k ∈ registry.componentsOf u,
          (∃ c' ∈ k.scales, scales.lookup tree u c' = .ok (some s)) ∧
          k.type = .interval ∧ k.resolve = .global ∧ k.bind = some .scales ∧
          ∃ p ∈ k.projections, e = k.name ++ "[" ++ Text.quote p.field.name ++ "]" := by
  obtain ⟨hw, hl⟩ := ViewTree.ofSpec_wellFormed htree
  have hplaced := placed_of_parse htree h
  have hunit : ∀ k ∈ registry.components, (tree.unit? k.unit).isSome := by
    intro k hk
    obtain ⟨d, hd, _, scope, outer, _, _, rfl⟩ := exists_declaration_of_component h hk
    have hunit := ViewTree.unit?_of_declaration hw hd
    exact Option.isSome_of_eq_some hunit
  have hcomponents : ∀ k ∈ registry.components, k ∈ registry.componentsOf k.unit :=
    fun k hk => Registry.mem_componentsOf.mpr ⟨hk, rfl⟩
  refine ⟨?_, ?_, ?_⟩
  · obtain ⟨_, _, rfl, _⟩ := parseSelections_ok h
    rw [ScaleTable.unbound_bindAll, ScaleTable.unbound_ofTree hw hl]
  · rw [← parseSelections_eq_threaded (ScaleTable.placed_ofTree hw hl), h]
  · intro o c s hs
    obtain ⟨howner, hchannel⟩ := hplaced o c s hs
    refine ⟨howner, hchannel, ?_, ?_⟩
    · rw [binding_isSome_iff htree h hs]
      constructor
      · rintro ⟨k, hk, hdrives⟩
        exact ⟨k.unit, hunit k hk, k, hcomponents k hk, Component.drivesScale_iff.mp hdrives⟩
      · rintro ⟨u, _, k, hk, hdrives⟩
        obtain ⟨hmem, rfl⟩ := Registry.mem_componentsOf.mp hk
        exact ⟨k, hmem, Component.drivesScale_iff.mpr hdrives⟩
    · intro e he
      obtain ⟨k, hk, p, haim, rfl⟩ := exists_aim_of_binding htree h hs he
      obtain ⟨hdrives, hp, _⟩ := Component.mem_aims.mp haim
      obtain ⟨c', hc', hfound⟩ := Component.drivesScale_iff.mp hdrives
      obtain ⟨⟨htype, hresolve, hbind⟩, _, s', hfound', hdrivable⟩ :=
        (mem_scales_iff htree h hk).mp hc'
      obtain rfl : s' = s := Option.some.inj (Except.ok.inj (hfound'.symm.trans hfound))
      exact ⟨hdrivable, ScaleType.canBeDriven_iff.mp hdrivable, k.unit, hunit k hk, k,
        hcomponents k hk, ⟨c', hc', hfound⟩, htype, hresolve, hbind, p, hp, rfl⟩

end Parsed

/-- Two views side by side on one `x` axis, each with a selection that pans it. -/
def ViewSpec.sharedPan : ViewSpec :=
  .concatenated { (default : ViewHead) with resolve := Table.ofList [(.x, .shared)] }
    [points [(.x, .numeric "A")] [("grid", .scaleBound [.x])],
      points [(.x, .numeric "B")] [("pan", .scaleBound [.x])]]

theorem parseSelections_bindings_sharedPan :
    ∃ tree scales registry, ViewTree.ofSpec .sharedPan = .ok tree ∧
      (parseSelections tree .none (.ofTree tree)).result = .ok (scales, registry) ∧
      (parseSelectionsThreaded tree .none (.ofTree tree)).result = .ok (scales, registry) ∧
      scales.unbound = .ofTree tree ∧
      ∃ s, scales.get? 0 .x = some s ∧ s.binding = some "pan[\"B\"]" ∧ s.type.canBeDriven ∧
        s.type ∉ [.binLinear, .binOrdinal, .ordinal, .band, .point] ∧
        ∃ u, (tree.unit? u).isSome ∧ ∃ k ∈ registry.componentsOf u,
          (∃ c ∈ k.scales, scales.lookup tree u c = .ok (some s)) ∧
          k.type = .interval ∧ k.resolve = .global ∧ k.bind = some .scales ∧
          ∃ p ∈ k.projections, "pan[\"B\"]" = k.name ++ "[" ++ Text.quote p.field.name ++ "]" := by
  have htree : ViewTree.ofSpec .sharedPan = .ok _ := rfl
  obtain ⟨hunbound, hthreaded, hscales⟩ := @parseSelections_bindings _ _ .none _ _ htree rfl
  refine ⟨_, _, _, htree, rfl, hthreaded, hunbound, _, rfl, rfl, ?_⟩
  obtain ⟨-, -, -, hsource⟩ := hscales 0 .x _ rfl
  exact hsource _ rfl

end BrushLink
