import BrushLink.Proofs.Failure
import BrushLink.Proofs.Selection.Projection

/-! # Which positions an interval captures

An interval captures positions only, and a channel of another kind that it lists is dropped.
But fields are captured before channels are looked at: each listed field has the last of its
channels (`UnitView.lastChannel?_mentions`), and it is this channel that has to be a position
(`Declaration.mem_kept_interval`).  So a position is captured exactly if the last listed channel
that shows its field is a position as well.  Where it is not, the other channel takes the
position with it (`UnitView.Overtaken`), and an interval all of whose positions are overtaken
captures nothing at all (`Declaration.interval_projections`).
-/
namespace BrushLink

/-! ## The last channel of a field -/

namespace UnitView
variable {u : UnitView} {s : Settings} {cs : List Channel} {c : Channel} {f : Field}

/-- The last of several channels that show a field. -/
def lastShowing? (u : UnitView) (cs : List Channel) (f : Field) : Option Channel :=
  (cs.filter fun c => u.field? c = some f).getLast?

/-- The last of several channels that show a field is not a position. -/
def Overtaken (u : UnitView) (cs : List Channel) (f : Field) : Prop :=
  ∃ c, u.lastShowing? cs f = some c ∧ c.isPositional = false

theorem of_lastShowing? (h : u.lastShowing? cs f = some c) : c ∈ cs ∧ u.field? c = some f := by
  obtain ⟨hc, hf⟩ := List.mem_filter.mp (List.mem_of_getLast? h)
  exact ⟨hc, of_decide_eq_true hf⟩

/-- A field that a listed channel shows has a last such channel. -/
theorem exists_lastShowing? (hc : c ∈ cs) (hf : u.field? c = some f) :
    ∃ c', u.lastShowing? cs f = some c' := by
  have hmem : c ∈ cs.filter fun c => u.field? c = some f :=
    List.mem_filter.mpr ⟨hc, decide_eq_true hf⟩
  exact Option.isSome_iff_exists.mp (List.getLast?_isSome.mpr (List.ne_nil_of_mem hmem))

/-- The last channel with which settings mention a field is the last that they list for it. -/
theorem lastChannel?_mentions (h : s.projects = true) (f : Field) :
    Projection.lastChannel? (u.mentions s) f = u.lastShowing? (s.encodings.getD []) f := by
  rw [mentions, if_pos h, Projection.lastChannel?, lastShowing?, List.filter_append,
    List.filterMap_append]
  have hfields : (((s.fields.getD []).map fun f => (⟨none, f⟩ : Projection)).filter
      fun p => p.field = f).filterMap Projection.channel = [] := by
    rw [List.filterMap_eq_nil_iff]
    intro p hp
    obtain ⟨f', _, rfl⟩ := List.mem_map.mp (List.mem_filter.mp hp).1
    rfl
  rw [hfields, List.nil_append]
  congr 1
  induction s.encodings.getD [] with
  | nil => rfl
  | cons c cs ih =>
    cases hc : u.field? c with
    | none => simp [hc, ih]
    | some f' =>
      by_cases hf : f' = f
      · simp [hc, hf, ih]
      · simp [hc, hf, ih]

/-- Settings that say what is captured capture a field through a channel if the channel is the
last that they list for it. -/
theorem mem_project_iff (h : s.projects = true) :
    (⟨some c, f⟩ : Projection) ∈ u.project s ↔ u.lastShowing? (s.encodings.getD []) f = some c := by
  rw [project_eq, Projection.condense, List.mem_map]
  constructor
  · rintro ⟨f', _, he⟩
    obtain ⟨hc, rfl⟩ := Projection.mk.inj he
    rw [← lastChannel?_mentions h, hc]
  · intro hlast
    obtain ⟨hc, hf⟩ := of_lastShowing? hlast
    refine ⟨f, ?_, by rw [lastChannel?_mentions h, hlast]⟩
    rw [List.mem_eraseDups, List.mem_map]
    refine ⟨⟨some c, f⟩, ?_, rfl⟩
    rw [mentions, if_pos h]
    exact List.mem_append_right _ (List.mem_filterMap.mpr ⟨c, hc, by rw [hf, Option.map_some]⟩)

end UnitView

/-! ## Intervals -/

namespace Declaration
variable {tree : ViewTree} {scales : ScaleTable} {config : SelectionConfig} {d : Declaration}

/-- The channels that the selection lists, once its open settings are filled. -/
def listedChannels (config : SelectionConfig) (d : Declaration) : List Channel :=
  (d.filled config).selection.settings.encodings.getD []

/-- An interval that says nothing of what it captures has both positions. -/
theorem projects_filled (config : SelectionConfig) (htype : d.selection.type = .interval) :
    (d.filled config).selection.settings.projects = true := by
  have hbuiltin : (SelectionConfig.builtin.settingsFor d.selection.type).encodings =
      some [.x, .y] := by
    rw [htype]
    rfl
  change ((config.fill d.selection).settings.orElse
    (SelectionConfig.builtin.settingsFor d.selection.type)).projects = true
  by_cases hs : (config.fill d.selection).settings.projects
  · rw [Settings.projects, Settings.orElse, if_pos hs, if_pos hs]
    exact hs
  · rw [Settings.projects, Settings.orElse, if_neg hs, if_neg hs, hbuiltin]
    rfl

/-- An interval keeps a field exactly if the last channel that it lists for it is a position. -/
theorem mem_kept_interval (htype : d.selection.type = .interval) {p : Projection} :
    p ∈ (d.filled config).kept ↔ ∃ c, p.channel = some c ∧ c.isPositional = true ∧
      d.content.lastShowing? (d.listedChannels config) p.field = some c := by
  have hprojects := projects_filled config htype
  have hkept : (d.filled config).kept =
      (d.content.project (d.filled config).selection.settings).filter Projection.isPositional :=
    if_pos htype
  obtain ⟨channel, f⟩ := p
  rw [hkept, List.mem_filter]
  constructor
  · rintro ⟨hp, hpositional⟩
    obtain ⟨c, rfl, hc⟩ := (Option.any_eq_true _ _).mp hpositional
    exact ⟨c, rfl, hc, (UnitView.mem_project_iff hprojects).mp hp⟩
  · rintro ⟨c, rfl, hc, hlast⟩
    exact ⟨(UnitView.mem_project_iff hprojects).mpr hlast, hc⟩

/-- Of a listed position the field is kept, and then on a position, unless it is overtaken. -/
theorem exists_kept_iff (htype : d.selection.type = .interval) {c : Channel} {f : Field}
    (hc : c ∈ d.listedChannels config) (hf : d.content.field? c = some f) :
    (∃ p ∈ (d.filled config).kept, p.field = f) ↔
      ¬ d.content.Overtaken (d.listedChannels config) f := by
  obtain ⟨last, hlast⟩ := UnitView.exists_lastShowing? hc hf
  constructor
  · rintro ⟨p, hp, rfl⟩ ⟨last', hlast', hnot⟩
    obtain ⟨c', _, hc', hlast''⟩ := (mem_kept_interval htype).mp hp
    rw [hlast'] at hlast''
    obtain rfl := Option.some.inj hlast''
    rw [hnot] at hc'
    cases hc'
  · intro hnot
    refine ⟨⟨some last, f⟩, (mem_kept_interval htype).mpr ⟨last, rfl, ?_, hlast⟩, rfl⟩
    by_contra hpositional
    exact hnot ⟨last, hlast, Bool.eq_false_iff.mpr hpositional⟩

/-- An interval keeps nothing exactly if all positions that it lists are overtaken. -/
theorem kept_eq_nil_iff (htype : d.selection.type = .interval) :
    (d.filled config).kept = [] ↔ ∀ c ∈ d.listedChannels config, c.isPositional = true →
      ∀ f, d.content.field? c = some f → d.content.Overtaken (d.listedChannels config) f := by
  rw [List.eq_nil_iff_forall_not_mem]
  constructor
  · intro hnone c hc _ f hf
    by_contra hnot
    obtain ⟨p, hp, _⟩ := (exists_kept_iff htype hc hf).mpr hnot
    exact hnone p hp
  · intro hovertaken p hp
    obtain ⟨c, _, hpositional, hlast⟩ := (mem_kept_interval htype).mp hp
    obtain ⟨hc, hf⟩ := UnitView.of_lastShowing? hlast
    exact (exists_kept_iff htype hc hf).mp ⟨p, hp, rfl⟩ (hovertaken c hc hpositional _ hf)

/-- A declaration fails for want of a field exactly if it keeps none. -/
theorem parse_eq_emptyProjection_iff :
    (d.parse tree scales).result = .error (.emptyProjection d.name d.view) ↔ d.kept = [] := by
  rw [parse]
  split
  · rename_i hempty
    exact iff_of_true rfl (List.isEmpty_iff.mp hempty)
  · rename_i hkept
    refine iff_of_false (fun hfailed => ?_) fun hnil => hkept (List.isEmpty_iff.mpr hnil)
    split at hfailed
    · cases hfailed
    · cases hfailed
    · cases hfailed

/-- In the tree of a specification there is no other failure. -/
theorem exists_parse_iff {spec : ViewSpec} (htree : ViewTree.ofSpec spec = .ok tree)
    (hd : d ∈ tree.declarations) :
    (∃ parsed, ((d.filled config).parse tree scales).result = .ok parsed) ↔
      (d.filled config).kept ≠ [] := by
  constructor
  · rintro ⟨parsed, hparsed⟩
    exact (parse_ok hparsed).1
  · intro hne
    have hw := (ViewTree.ofSpec_wellFormed htree).1
    obtain ⟨n, hn, _⟩ := ViewTree.exists_node_of_mem_units (ViewTree.exists_unit_of_declaration hd).1
    obtain ⟨outer, houter⟩ := exists_sharesOuterScope hw hn
    have hscope : tree.ancestors (d.filled config).unit = .ok _ := ViewTree.ancestors_of_get? hn
    have houter' : sharesOuterScope tree (d.filled config).unit = .ok outer := houter
    rw [parse, if_neg fun hempty => hne (List.isEmpty_iff.mp hempty), hscope, houter']
    exact ⟨_, rfl⟩

/-- **Which positions an interval captures.**  Once its open settings are filled, an interval
captures a field through a channel if the channel is a position and the last that it lists for
the field.  So the field of a position that it lists is captured, and through a position, unless
it is overtaken; and the interval fails for want of a field exactly if all positions that it
lists are overtaken.  In the tree of a specification it becomes a component otherwise. -/
theorem interval_projections (htype : d.selection.type = .interval) :
    (∀ parsed, ((d.filled config).parse tree scales).result = .ok parsed →
      (∀ p, p ∈ parsed.component.projections ↔ ∃ c, p.channel = some c ∧ c.isPositional ∧
        d.content.lastShowing? (d.listedChannels config) p.field = some c) ∧
      ∀ c ∈ d.listedChannels config, c.isPositional → ∀ f, d.content.field? c = some f →
        ((∃ p ∈ parsed.component.projections, p.field = f ∧ p.isPositional) ↔
          ¬ d.content.Overtaken (d.listedChannels config) f)) ∧
    (((d.filled config).parse tree scales).result = .error (.emptyProjection d.name d.view) ↔
      ∀ c ∈ d.listedChannels config, c.isPositional → ∀ f, d.content.field? c = some f →
        d.content.Overtaken (d.listedChannels config) f) ∧
    ∀ spec, ViewTree.ofSpec spec = .ok tree → d ∈ tree.declarations →
      ((∃ parsed, ((d.filled config).parse tree scales).result = .ok parsed) ↔
        ∃ c ∈ d.listedChannels config, c.isPositional ∧ ∃ f, d.content.field? c = some f ∧
          ¬ d.content.Overtaken (d.listedChannels config) f) := by
  refine ⟨?_, ?_, ?_⟩
  · intro parsed hparsed
    obtain ⟨_, scope, outer, _, _, rfl⟩ := parse_ok hparsed
    refine ⟨fun p => mem_kept_interval htype, fun c hc _ f hf => ?_⟩
    rw [← exists_kept_iff htype hc hf]
    constructor
    · rintro ⟨p, hp, hpf, _⟩
      exact ⟨p, hp, hpf⟩
    · rintro ⟨p, hp, hpf⟩
      exact ⟨p, hp, hpf, kept_positional (d := d.filled config) htype p hp⟩
  · rw [← kept_eq_nil_iff htype]
    exact parse_eq_emptyProjection_iff (d := d.filled config)
  · intro spec htree hd
    rw [exists_parse_iff htree hd, ne_eq, kept_eq_nil_iff htype]
    simp only [not_forall, exists_prop]

end Declaration

/-- A brush over two positions, whose fields are shown by colour and by size as well. -/
def Declaration.crowdedBrush : Declaration :=
  let shown (f : String) : ChannelDef Field := ⟨some ⟨f⟩, .quantitative, false, none, .data⟩
  ⟨0, "root", ⟨.point, .ofList [(.x, shown "A"), (.color, shown "A"), (.y, shown "B"),
      (.size, shown "B")], ∅, none⟩, "brush",
    ⟨.interval, { Settings.none with encodings := some [.color, .x, .y, .size] }⟩⟩

/-- `x` is listed after the colour and is captured, `y` before the size and is not. -/
theorem Declaration.interval_projections_crowdedBrush :
    let tree : ViewTree := ⟨[⟨"root", none, .unit crowdedBrush.content⟩]⟩
    ∃ parsed, ((crowdedBrush.filled .none).parse tree .empty).result = .ok parsed ∧
      (∃ p ∈ parsed.component.projections, p.field = ⟨"A"⟩ ∧ p.isPositional) ∧
      ¬ ∃ p ∈ parsed.component.projections, p.field = ⟨"B"⟩ ∧ p.isPositional := by
  intro tree
  obtain ⟨parsed, h⟩ :
      ∃ parsed, ((crowdedBrush.filled .none).parse tree .empty).result = .ok parsed := ⟨_, rfl⟩
  obtain ⟨_, hpositions⟩ := (interval_projections rfl).1 parsed h
  refine ⟨parsed, h, (hpositions .x (by decide) rfl ⟨"A"⟩ rfl).mpr ?_, ?_⟩
  · rintro ⟨c, hc, hnot⟩
    cases hc
    cases hnot
  · rw [hpositions .y (by decide) rfl ⟨"B"⟩ rfl, not_not]
    exact ⟨.size, rfl, rfl⟩

/-- A brush along `x`, whose field is shown by colour as well, and the colour is listed too. -/
def ViewSpec.colouredBrush : ViewSpec :=
  points [(.x, .numeric "A"), (.color, .numeric "A")]
    [("brush", ⟨.interval, { Settings.none with encodings := some [.x, .color] }⟩)]

/-- The interval lists a position that shows a field, and yet captures none. -/
theorem colouredBrush_captures_nothing :
    ∃ tree, ViewTree.ofSpec .colouredBrush = .ok tree ∧
      (∃ d ∈ tree.declarations, d.selection.type = .interval ∧
        .x ∈ d.listedChannels .none ∧ d.content.field? .x = some ⟨"A"⟩ ∧
        ((d.filled .none).parse tree (.ofTree tree)).result =
          .error (.emptyProjection "brush" "root")) ∧
      (compile .colouredBrush).result = .error (.emptyProjection "brush" "root") :=
  ⟨_, rfl, ⟨_, List.mem_cons_self, rfl, by decide, rfl, rfl⟩, rfl⟩

end BrushLink
