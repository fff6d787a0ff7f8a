import BrushLink.Proofs.Selection.Driving
import BrushLink.Proofs.Signal.Expression

/-! # Driven scales and the fields they show

A projection through a channel captures the field that its view shows there
(`UnitView.field?_of_mem_project`), and a scale shows what the views show that find it
under its channel, and nothing else (`mem_fields_iff_lookup`).  So a scale that is
driven through its own channel is driven by a field that it shows.

A diagonal view drives the scale of the opposite position as well, as if both positions
showed the same field.  Nothing makes sure that they do.  Where they do not, both scales
of the view end up with the field that comes last (`binding_of_own_scale`), and one of
them does not show it.
-/
namespace BrushLink

/-! ## What projections capture -/

namespace UnitView
variable {u : UnitView} {t : Table Field (Option Channel)} {c : Channel} {f : Field}

theorem field?_of_mem_fields (h : (c, f) ∈ u.fields) : u.field? c = some f := by
  obtain ⟨⟨c', d⟩, he, hf⟩ := List.mem_filterMap.mp h
  obtain ⟨f', hf', hpair⟩ := Option.map_eq_some_iff.mp hf
  obtain ⟨rfl, rfl⟩ := Prod.mk.inj hpair
  rw [field?, Table.get?_eq_some_iff.mpr he]
  exact hf'

/-- Captured fields that have a channel are shown there. -/
def Shows (u : UnitView) (t : Table Field (Option Channel)) : Prop :=
  ∀ f c, t.get? f = some (some c) → u.field? c = some f

theorem Shows.insert (h : u.Shows t) (hf : u.field? c = some f) :
    u.Shows (t.insert f (some c)) := by
  intro f' c' hget
  rw [Table.get?_insert] at hget
  split at hget
  · rename_i he
    obtain rfl := Option.some.inj (Option.some.inj hget)
    rw [he, hf]
  · exact h f' c' hget

theorem Shows.insertNew (h : u.Shows t) (f : Field) : u.Shows (t.insertNew f none) := by
  rw [Table.insertNew]
  split
  · exact h
  · intro f' c' hget
    rw [Table.get?_insert] at hget
    split at hget
    · cases hget
    · exact h f' c' hget

theorem shows_captured (u : UnitView) (s : Settings) : u.Shows (u.captured s) := by
  -- one induction for each of the three rounds: the whole encoding, fields, channels
  refine List.foldlRecOn _ _ (List.foldlRecOn _ _ (List.foldlRecOn _ _ ?_ ?_) ?_) ?_
  · intro f c hget
    cases hget
  · intro t ht e he
    refine ht.insert (field?_of_mem_fields ?_)
    split at he
    · cases he
    · exact he
  · intro t ht f _
    exact ht.insertNew f
  · intro t ht c _
    split
    · rename_i f hf
      exact ht.insert hf
    · exact ht

/-- A projection through a channel captures what the view shows there. -/
theorem field?_of_mem_project {s : Settings} {p : Projection} (h : p ∈ u.project s)
    (hc : p.channel = some c) : u.field? c = some p.field := by
  obtain ⟨⟨f, channel⟩, he, rfl⟩ := List.mem_map.mp h
  obtain rfl : channel = some c := hc
  exact u.shows_captured s f c (Table.get?_eq_some_iff.mpr he)

end UnitView

theorem Declaration.kept_subset (d : Declaration) :
    d.kept ⊆ d.content.project d.selection.settings := by
  intro p hp
  rw [kept] at hp
  split at hp
  · exact (List.mem_filter.mp hp).1
  · exact hp

/-! ## What scales show -/

/-- The scales of a tree show what the views show that find them. -/
theorem ScaleTable.mem_fields_ofTree {t : ViewTree} (hw : t.WellFormed) (hl : t.UnitsAreLeaves)
    {o : ViewId} {c : Channel} {s : Scale} {f : Field} (hs : (ofTree t).get? o c = some s) :
    f ∈ s.fields ↔ ∃ v u, t.unit? v = some u ∧ (ofTree t).lookup t v c = .ok (some s) ∧
      u.field? c = some f := by
  have hc : c.hasScale = true :=
    ((get?_ofTree_isSome hw hl o c).mp (Option.isSome_of_eq_some hs)).1
  obtain ⟨howner, _, hfields, _⟩ := made_of_units hw hl hs
  rw [hfields, List.mem_eraseDups, List.mem_filterMap]
  constructor
  · rintro ⟨u, hmem, hf⟩
    obtain ⟨hsome, v, hu, ho⟩ := (ViewTree.mem_unitsFor hw).mp hmem
    obtain ⟨s', hget, hfound⟩ := lookup_of_field hw hl hu hc hsome
    rw [ho, hs] at hget
    obtain rfl := Option.some.inj hget
    exact ⟨v, u, hu, hfound, hf⟩
  · rintro ⟨v, u, hu, hfound, hf⟩
    have hsome : (u.field? c).isSome := Option.isSome_of_eq_some hf
    obtain ⟨s', hget, hfound'⟩ := lookup_of_field hw hl hu hc hsome
    obtain rfl : s' = s := Option.some.inj (Except.ok.inj (hfound'.symm.trans hfound))
    have ho : t.scaleOwner c v = o := (made_of_units hw hl hget).1.symm.trans howner
    exact ⟨u, (ViewTree.mem_unitsFor hw).mpr ⟨hsome, v, hu, ho⟩, hf⟩

/-- No two projections go through one channel. -/
def Component.ChannelsApart (k : Component) : Prop :=
  ∀ p ∈ k.projections, ∀ q ∈ k.projections, ∀ c, p.channel = some c → q.channel = some c → p = q

section Parsed
variable {spec : ViewSpec} {tree : ViewTree} {config : SelectionConfig} {scales : ScaleTable}
  {registry : Registry} {k : Component} {p : Projection} {c : Channel} {s : Scale}

/-- Bindings change nothing about what a scale shows. -/
theorem mem_fields_iff_lookup (htree : ViewTree.ofSpec spec = .ok tree)
    (h : (parseSelections tree config (.ofTree tree)).result = .ok (scales, registry))
    {o : ViewId} {f : Field} (hs : scales.get? o c = some s) :
    f ∈ s.fields ↔ ∃ v u, tree.unit? v = some u ∧ scales.lookup tree v c = .ok (some s) ∧
      u.field? c = some f := by
  obtain ⟨hw, hl⟩ := ViewTree.ofSpec_wellFormed htree
  have hplaced := ScaleTable.placed_ofTree hw hl
  obtain ⟨_, _, rfl, _⟩ := parseSelections_ok h
  rw [ScaleTable.get?_bindAll hplaced] at hs
  obtain ⟨s₀, hs₀, rfl⟩ := Option.map_eq_some_iff.mp hs
  rw [Scale.boundBy_fields, ScaleTable.mem_fields_ofTree hw hl hs₀]
  refine exists_congr fun v => exists_congr fun u => and_congr_right fun hu => ?_
  obtain ⟨n, hn, _⟩ := Option.bind_eq_some_iff.mp hu
  have hscope := ViewTree.ancestors_of_get? hn
  rw [ScaleTable.lookup_bindAll_iff hplaced hs₀ hscope, ScaleTable.lookup_of_ancestors hscope,
    Except.ok.injEq]
  simp only [true_and]

theorem shown_of_lookup (htree : ViewTree.ofSpec spec = .ok tree)
    (h : (parseSelections tree config (.ofTree tree)).result = .ok (scales, registry))
    {v : ViewId} {u : UnitView} {f : Field} (hu : tree.unit? v = some u)
    (hf : u.field? c = some f) (hs : scales.lookup tree v c = .ok (some s)) : f ∈ s.fields := by
  obtain ⟨_, _, hnearest⟩ := ScaleTable.lookup_eq_ok.mp hs
  obtain ⟨_, _, hget⟩ := ScaleTable.owner_mem_of_nearest? (placed_of_parse htree h) hnearest
  exact (mem_fields_iff_lookup htree h hget).mpr ⟨v, u, hu, hs, hf⟩

/-- A component is on a unit view, and captures through a channel what the view shows
there. -/
theorem exists_unit_of_component (htree : ViewTree.ofSpec spec = .ok tree)
    (h : (parseSelections tree config (.ofTree tree)).result = .ok (scales, registry))
    (hk : k ∈ registry.components) :
    ∃ u, tree.unit? k.unit = some u ∧
      ∀ p ∈ k.projections, ∀ c, p.channel = some c → u.field? c = some p.field := by
  obtain ⟨hw, _⟩ := ViewTree.ofSpec_wellFormed htree
  obtain ⟨d, hd, _, scope, outer, _, _, rfl⟩ := exists_declaration_of_component h hk
  have hunit := ViewTree.unit?_of_declaration hw hd
  refine ⟨d.content, hunit, ?_⟩
  intro p hp c hc
  exact UnitView.field?_of_mem_project ((d.filled config).kept_subset hp) hc

theorem channelsApart_of_component (htree : ViewTree.ofSpec spec = .ok tree)
    (h : (parseSelections tree config (.ofTree tree)).result = .ok (scales, registry))
    (hk : k ∈ registry.components) : k.ChannelsApart := by
  obtain ⟨u, _, hshows⟩ := exists_unit_of_component htree h hk
  intro p hp q hq c hpc hqc
  have hfield : p.field = q.field :=
    Option.some.inj ((hshows p hp c hpc).symm.trans (hshows q hq c hqc))
  obtain ⟨_, _⟩ := p
  obtain ⟨_, _⟩ := q
  exact congr (congrArg Projection.mk (hpc.trans hqc.symm)) hfield

/-- If only one element contributes, the last contribution is the last of its own. -/
theorem getLast?_flatMap_of_single {α β : Type} {f : α → List β} {a : α} {as : List α} (ha : a ∈ as)
    (h : ∀ b ∈ as, f b ≠ [] → b = a) : (as.flatMap f).getLast? = (f a).getLast? := by
  induction as using List.reverseRecOn with
  | nil => cases ha
  | append_singleton as b ih =>
    rw [List.flatMap_append, List.flatMap_singleton, List.getLast?_append]
    by_cases hb : f b = []
    · rw [hb, List.getLast?_nil, Option.none_or]
      by_cases has : a ∈ as
      · exact ih has fun b' hb' => h b' (List.mem_append_left _ hb')
      · -- the element is the last one, and contributes nothing
        obtain rfl : a = b := by
          rcases List.mem_append.mp ha with ha | ha
          · exact absurd ha has
          · exact List.mem_singleton.mp ha
        have hnil : as.flatMap f = [] := by
          rw [List.flatMap_eq_nil_iff]
          intro b' hb'
          by_contra hne
          obtain rfl := h b' (List.mem_append_left _ hb') hne
          exact has hb'
        rw [hnil, hb]
    · obtain rfl := h b (List.mem_append_right _ List.mem_cons_self) hb
      rw [List.getLast?_eq_some_getLast hb, Option.some_or]

/-- A view that owns its scales, and has one component that drives scales: the last of
its projections that aim at a scale drives it. -/
theorem binding_of_own_scale (htree : ViewTree.ofSpec spec = .ok tree)
    (h : (parseSelections tree config (.ofTree tree)).result = .ok (scales, registry))
    (hk : k ∈ registry.components) (hbound : k.BoundToScales)
    (halone : ∀ k' ∈ registry.componentsOf k.unit, k'.scales ≠ [] → k' = k)
    (hs : scales.get? k.unit c = some s) (htype : s.type.canBeDriven = true)
    (haims : ∃ p ∈ k.projections, p.aimsAt (tree.isDiagonal k.unit) c = true) :
    s.binding = (k.projections.filter fun p =>
      p.aimsAt (tree.isDiagonal k.unit) c).getLast?.map fun p => selectionEntry k.name p.field := by
  obtain ⟨_, hl⟩ := ViewTree.ofSpec_wellFormed htree
  have hplaced := placed_of_parse htree h
  obtain ⟨howner, hchannel⟩ := hplaced k.unit c s hs
  have hscope : ∀ k' ∈ registry.components, ∃ u above, tree.unit? k'.unit = some u ∧
      tree.ancestors k'.unit = .ok (k'.unit :: above) ∧
      ∀ a ∈ k'.unit :: above, tree.Within k'.unit a := by
    intro k' hk'
    obtain ⟨u, hu, _⟩ := exists_unit_of_component htree h hk'
    obtain ⟨n, hn, _⟩ := Option.bind_eq_some_iff.mp hu
    obtain ⟨above, habove, hwithin⟩ := ViewTree.ancestors_eq_cons hn
    exact ⟨u, above, hu, habove, hwithin⟩
  obtain ⟨u, above, hu, habove, _⟩ := hscope k hk
  have hlookup : scales.lookup tree k.unit c = .ok (some s) := by
    rw [ScaleTable.lookup_of_ancestors habove, ScaleTable.nearest?, List.findSome?_cons, hs]
  have hdrives : k.drivesScale tree scales s = true :=
    Component.drivesScale_iff.mpr
      ⟨c, (mem_scales_iff htree h hk).mpr ⟨hbound, haims, s, hlookup, htype⟩, hlookup⟩
  -- whoever drives the scale is beneath its owner, a unit view, and so on that view
  have hsingle : ∀ k' ∈ registry.components,
      ((k'.aims tree scales s).map fun p => selectionEntry k'.name p.field) ≠ [] → k' = k := by
    intro k' hk' hne
    obtain ⟨e, he⟩ := List.exists_mem_of_ne_nil _ hne
    obtain ⟨p, hp, _⟩ := List.mem_map.mp he
    obtain ⟨c', hc', hfound⟩ := Component.drivesScale_iff.mp (Component.mem_aims.mp hp).1
    obtain ⟨_, above', _, habove', hwithin⟩ := hscope k' hk'
    rw [ScaleTable.lookup_of_ancestors habove'] at hfound
    obtain ⟨hmem, _, _⟩ := ScaleTable.owner_mem_of_nearest? hplaced (Except.ok.inj hfound)
    have hunit : k'.unit = k.unit := (hwithin _ (howner ▸ hmem)).eq_of_unit? hl hu
    exact halone k' (Registry.mem_componentsOf.mpr ⟨hk', hunit⟩) (List.ne_nil_of_mem hc')
  rw [binding_eq_getLast? htree h hs, getLast?_flatMap_of_single hk hsingle, List.getLast?_map,
    Component.aims, if_pos hdrives, hchannel]

/-- Off the diagonal only the projection through the channel itself aims at a scale. -/
theorem getLast?_aims_of_not_diagonal {u : UnitView} {f : Field}
    (hshows : ∀ p ∈ k.projections, ∀ c, p.channel = some c → u.field? c = some p.field)
    (hp : ⟨some c, f⟩ ∈ k.projections) :
    (k.projections.filter fun p => p.aimsAt false c).getLast? = some ⟨some c, f⟩ := by
  have hmem : ⟨some c, f⟩ ∈ k.projections.filter fun p => p.aimsAt false c :=
    List.mem_filter.mpr ⟨hp, by simp [Projection.aimsAt]⟩
  have hunique : ∀ q ∈ k.projections.filter fun p => p.aimsAt false c, q = ⟨some c, f⟩ := by
    rintro ⟨channel, g⟩ hq
    obtain ⟨hq, haims⟩ := List.mem_filter.mp hq
    obtain rfl : channel = some c := by simpa [Projection.aimsAt] using haims
    obtain rfl : g = f := Option.some.inj ((hshows _ hq c rfl).symm.trans (hshows _ hp c rfl))
    rfl
  obtain ⟨q, hq⟩ := Option.isSome_iff_exists.mp
    (List.getLast?_isSome.mpr (List.ne_nil_of_mem hmem))
  rw [hq, hunique q (List.mem_of_getLast? hq)]

/-- On the diagonal all projections of positions aim at both scales. -/
theorem aimsAt_of_diagonal (hp : p.isPositional = true) (hc : c.isPositional = true) :
    p.aimsAt true c = true := by
  obtain ⟨channel, f⟩ := p
  obtain ⟨o, rfl, ho⟩ := (Option.any_eq_true _ _).mp hp
  cases o <;> cases ho <;> cases c <;> cases hc <;> rfl

/-- A scale that reads a field which no view shows under it is driven from a diagonal
view, through the opposite position. -/
theorem driven_from_opposite (htree : ViewTree.ofSpec spec = .ok tree)
    (h : (parseSelections tree config (.ofTree tree)).result = .ok (scales, registry))
    {o : ViewId} {n : String} {f : Field} (hs : scales.get? o c = some s)
    (hbinding : s.binding = some (selectionEntry n f))
    (hnone : ∀ v u, tree.unit? v = some u → scales.lookup tree v c = .ok (some s) →
      u.field? c ≠ some f) :
    ∃ k ∈ registry.components, k.name = n ∧ k.drivesScale tree scales s ∧
      ∃ u opp, tree.unit? k.unit = some u ∧ u.isDiagonal ∧ Channel.opposite opp = some c ∧
        ⟨some opp, f⟩ ∈ k.projections ∧ u.field? opp = some f ∧ u.field? c ≠ some f := by
  obtain ⟨k, hk, p, hp, he⟩ := exists_aim_of_binding htree h hs hbinding
  obtain ⟨rfl, rfl⟩ := selectionEntry_inj he
  obtain ⟨hdrives, hp, haims⟩ := Component.mem_aims.mp hp
  obtain ⟨c', _, hfound⟩ := Component.drivesScale_iff.mp hdrives
  have hplaced := placed_of_parse htree h
  obtain rfl := ScaleTable.channel_of_lookup hplaced hfound
  obtain rfl := (hplaced o c s hs).2
  obtain ⟨u, hu, hshows⟩ := exists_unit_of_component htree h hk
  have hother := hnone k.unit u hu hfound
  obtain ⟨channel, f⟩ := p
  rw [ViewTree.isDiagonal_of_unit? hu] at haims
  rcases Projection.aimsAt_iff.mp haims with hown | ⟨hdiagonal, opp, hopp, hopposite⟩
  · exact absurd (hshows _ hp _ hown) hother
  · obtain rfl : channel = some opp := hopp
    exact ⟨k, hk, rfl, hdrives, u, opp, hu, hdiagonal, hopposite, hp, hshows _ hp opp rfl, hother⟩

end Parsed

/-- **When driven scales show what drives them.**  A scale that reads a field of a
selection fails to show this field exactly if it is driven from a diagonal view that
captures the field through the opposite position, and no view that finds the scale
shows the field on the scale's own position.  On a view with scales of its own and one
selection that drives both positions, each scale reads the field of its own position
exactly off the diagonal; on the diagonal both read whichever field is captured
last. -/
theorem driven_field_shown {spec : ViewSpec} {c : Compilation}
    (hc : (Compilation.ofSpec spec).result = .ok c) :
    (∀ o ch s n f, c.scales.get? o ch = some s → s.binding = some (selectionEntry n f) →
      (f ∉ s.fields ↔
        (∃ k ∈ c.registry.components, k.name = n ∧ k.drivesScale c.tree c.scales s ∧
          ∃ u opp, c.tree.unit? k.unit = some u ∧ u.isDiagonal ∧ Channel.opposite opp = some ch ∧
            ⟨some opp, f⟩ ∈ k.projections ∧ u.field? opp = some f ∧ u.field? ch ≠ some f) ∧
        ∀ v u, c.tree.unit? v = some u → c.scales.lookup c.tree v ch = .ok (some s) →
          u.field? ch ≠ some f)) ∧
    ∀ k ∈ c.registry.components, k.BoundToScales →
      (∀ k' ∈ c.registry.componentsOf k.unit, k'.scales ≠ [] → k' = k) →
      ∀ f g sx sy, ⟨some .x, f⟩ ∈ k.projections → ⟨some .y, g⟩ ∈ k.projections →
        c.scales.get? k.unit .x = some sx → sx.type.canBeDriven →
        c.scales.get? k.unit .y = some sy → sy.type.canBeDriven →
        (sx.binding = some (selectionEntry k.name f) ∧ sy.binding = some (selectionEntry k.name g) ↔
          c.tree.isDiagonal k.unit = false) ∧
        (c.tree.isDiagonal k.unit = true → ∃ p, k.projections.getLast? = some p ∧
          sx.binding = some (selectionEntry k.name p.field) ∧
          sy.binding = some (selectionEntry k.name p.field)) := by
  obtain ⟨htree, hparse⟩ := Compilation.ofSpec_steps hc
  constructor
  · intro o ch s n f hs hbinding
    have hshow := mem_fields_iff_lookup htree hparse (f := f) hs
    constructor
    · intro hnot
      have hnone : ∀ v u, c.tree.unit? v = some u →
          c.scales.lookup c.tree v ch = .ok (some s) → u.field? ch ≠ some f :=
        fun v u hu hfound hf => hnot (hshow.mpr ⟨v, u, hu, hfound, hf⟩)
      exact ⟨driven_from_opposite htree hparse hs hbinding hnone, hnone⟩
    · rintro ⟨_, hnone⟩ hmem
      obtain ⟨v, u, hu, hfound, hf⟩ := hshow.mp hmem
      exact hnone v u hu hfound hf
  · intro k hk hbound halone f g sx sy hx hy hsx htx hsy hty
    obtain ⟨u, hu, hshows⟩ := exists_unit_of_component htree hparse hk
    have hbx := binding_of_own_scale htree hparse hk hbound halone hsx htx
      ⟨_, hx, Projection.aimsAt_iff.mpr (Or.inl rfl)⟩
    have hby := binding_of_own_scale htree hparse hk hbound halone hsy hty
      ⟨_, hy, Projection.aimsAt_iff.mpr (Or.inl rfl)⟩
    cases hdiagonal : c.tree.isDiagonal k.unit with
    | false =>
      rw [hdiagonal, getLast?_aims_of_not_diagonal hshows hx] at hbx
      rw [hdiagonal, getLast?_aims_of_not_diagonal hshows hy] at hby
      exact ⟨⟨fun _ => rfl, fun _ => ⟨hbx, hby⟩⟩, nofun⟩
    | true =>
      have hdeclared := Compilation.declaredIn hc hk
      have hall : ∀ ch : Channel, ch.isPositional = true →
          k.projections.filter (fun p => p.aimsAt true ch) = k.projections := by
        intro ch hch
        rw [List.filter_eq_self]
        intro p hp
        exact aimsAt_of_diagonal (hdeclared.positional hbound.1 p hp) hch
      rw [hdiagonal, hall .x rfl] at hbx
      rw [hdiagonal, hall .y rfl] at hby
      obtain ⟨p, hp⟩ := Option.isSome_iff_exists.mp
        (List.getLast?_isSome.mpr (List.ne_nil_of_mem hx))
      rw [hp, Option.map_some] at hbx hby
      refine ⟨⟨fun ⟨hf, hg⟩ => ?_, nofun⟩, fun _ => ⟨p, hp, hbx, hby⟩⟩
      -- a field is captured once, so the two positions cannot have captured the same
      have hpf := (selectionEntry_inj (Option.some.inj (hbx.symm.trans hf))).2
      have hpg := (selectionEntry_inj (Option.some.inj (hby.symm.trans hg))).2
      have hsame : (⟨some .x, f⟩ : Projection) = ⟨some .y, g⟩ :=
        List.inj_on_of_nodup_map hdeclared.fields_nodup hx hy (hpf.symm.trans hpg)
      cases hsame

/-- Two fields against each other and against themselves, all panned together. -/
def ViewSpec.scatterMatrix : ViewSpec :=
  .repeated default (.grid ["A", "B"] ["A", "B"])
    (points [(.x, .numericAlong .column), (.y, .numericAlong .row)]
      [("grid", .scaleBound [.x, .y])])

theorem driven_field_shown_scatterMatrix :
    ∃ c, (Compilation.ofSpec .scatterMatrix).result = .ok c ∧
      ∃ k ∈ c.registry.components, k.BoundToScales ∧ k.name = "grid" ∧
        c.tree.isDiagonal k.unit = false ∧
        ∃ sx sy, c.scales.get? k.unit .x = some sx ∧ c.scales.get? k.unit .y = some sy ∧
          sx.binding = some "grid[\"B\"]" ∧ sy.binding = some "grid[\"A\"]" := by
  have hc : (Compilation.ofSpec .scatterMatrix).result = .ok _ := rfl
  refine ⟨_, hc, _, List.mem_of_getElem? (i := 1) rfl, ⟨rfl, rfl, rfl⟩, rfl, rfl, _, _, rfl, rfl,
    ?_⟩
  have hown := (driven_field_shown hc).2 _ (List.mem_of_getElem? (i := 1) rfl) ⟨rfl, rfl, rfl⟩
    (by decide +kernel) ⟨"B"⟩ ⟨"A"⟩ _ _ (by decide +kernel) (by decide +kernel) rfl rfl rfl rfl
  exact hown.1.mpr rfl

/-- A field repeated along rows and columns, against another one.  The views on the
diagonal show different fields on `x` and `y`. -/
def ViewSpec.fixedAxis : ViewSpec :=
  .repeated default (.grid ["A"] ["A"])
    (points [(.x, .numericAlong .column), (.y, .numeric "B")] [("grid", .scaleBound [.x, .y])])

/-- The scale of `x` reads the field that only `y` shows. -/
theorem fixedAxis_field_not_shown :
    ∃ c, (Compilation.ofSpec .fixedAxis).result = .ok c ∧
      ∃ k ∈ c.registry.components, k.BoundToScales ∧ k.name = "grid" ∧
        (∀ k' ∈ c.registry.componentsOf k.unit, k'.scales ≠ [] → k' = k) ∧
        ⟨some .x, ⟨"A"⟩⟩ ∈ k.projections ∧ ⟨some .y, ⟨"B"⟩⟩ ∈ k.projections ∧
        ∃ sx sy, c.scales.get? k.unit .x = some sx ∧ c.scales.get? k.unit .y = some sy ∧
          sx.type.canBeDriven ∧ sy.type.canBeDriven ∧
          sx.binding = some "grid[\"B\"]" ∧ sx.fields = [⟨"A"⟩] := by
  have hc : (Compilation.ofSpec .fixedAxis).result = .ok _ := rfl
  refine ⟨_, hc, _, List.mem_cons_self, ⟨rfl, rfl, rfl⟩, rfl, by decide +kernel, by decide +kernel,
    by decide +kernel, _, _, rfl, rfl, rfl, rfl, rfl, rfl⟩

end BrushLink
