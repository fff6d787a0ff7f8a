import BrushLink.Proofs.Scale.Shown
import BrushLink.Proofs.View.Creation
import BrushLink.Proofs.Warnings

/-! # Scales that a selection cannot drive

A selection that is bound to scales reports those that it wants to drive and cannot, because the
view finds none for the channel, or one that is discrete or binned
(`Compilation.mem_warnings_iff`).  It does so once for each projection that aims at the scale
(`Compilation.reports_eq_length`).

Off the diagonal at most one projection aims at a channel.  On the diagonal each of the two
positions aims at both channels.  If they show one field this is one projection; if they show
two, both projections report the same scale (`Component.two_le_length_aimsAt_iff`).
-/
namespace BrushLink

/-! ## Projections that aim at one channel -/

theorem Projection.position_of_aimsAt {p : Projection} {diagonal : Bool} {c : Channel}
    (hp : p.isPositional) (h : p.aimsAt diagonal c = true) : c = .x ∨ c = .y := by
  rcases aimsAt_iff.mp h with hc | ⟨_, o, ho, hc⟩
  · rcases isPositional_iff.mp hp with hx | hy
    · exact Or.inl (Option.some.inj (hc.symm.trans hx))
    · exact Or.inr (Option.some.inj (hc.symm.trans hy))
  · rcases isPositional_iff.mp hp with hx | hy
    · obtain rfl := Option.some.inj (ho.symm.trans hx)
      exact Or.inr (Option.some.inj hc).symm
    · obtain rfl := Option.some.inj (ho.symm.trans hy)
      exact Or.inl (Option.some.inj hc).symm

namespace Component

/-- The projections that aim at the scale of a channel. -/
def aimsAt (k : Component) (diagonal : Bool) (c : Channel) : List Projection :=
  k.projections.filter fun p => p.aimsAt diagonal c

section Interval
variable {k : Component} {diagonal : Bool} {c : Channel}
  (hpositional : ∀ p ∈ k.projections, p.isPositional) (hnodup : k.projections.Nodup)
  (hapart : k.ChannelsApart)
include hpositional hnodup hapart

/-- Projections are told apart by their channels, so there are not more of them. -/
theorem length_aimsAt_le (os : List (Option Channel))
    (h : ∀ p ∈ k.aimsAt diagonal c, p.channel ∈ os) :
    (k.aimsAt diagonal c).length ≤ os.length := by
  have hdistinct : ((k.aimsAt diagonal c).map Projection.channel).Nodup := by
    refine List.Nodup.map_on ?_ (hnodup.filter _)
    intro p hp q hq he
    have hp := (List.mem_filter.mp hp).1
    have hq := (List.mem_filter.mp hq).1
    rcases Projection.isPositional_iff.mp (hpositional p hp) with hx | hy
    · exact hapart p hp q hq .x hx (he ▸ hx)
    · exact hapart p hp q hq .y hy (he ▸ hy)
  have hsubset : (k.aimsAt diagonal c).map Projection.channel ⊆ os := by
    intro o ho
    obtain ⟨p, hp, rfl⟩ := List.mem_map.mp ho
    exact h p hp
  have hlength := (List.subperm_of_subset hdistinct hsubset).length_le
  rwa [List.length_map] at hlength

theorem length_aimsAt_le_two : (k.aimsAt diagonal c).length ≤ 2 := by
  refine length_aimsAt_le hpositional hnodup hapart [some .x, some .y] fun p hp => ?_
  rcases Projection.isPositional_iff.mp (hpositional p (List.mem_filter.mp hp).1) with hx | hy
  · exact hx ▸ List.mem_cons_self
  · exact hy ▸ List.mem_cons_of_mem _ List.mem_cons_self

/-- Two projections aim at one channel only on the diagonal, and only if its positions show two
fields. -/
theorem two_le_length_aimsAt_iff :
    2 ≤ (k.aimsAt diagonal c).length ↔ diagonal = true ∧ (c = .x ∨ c = .y) ∧
      (∃ f, ⟨some .x, f⟩ ∈ k.projections) ∧ ∃ f, ⟨some .y, f⟩ ∈ k.projections := by
  constructor
  · intro hlength
    have hsingle : ∀ o, ¬ ∀ p ∈ k.aimsAt diagonal c, p.channel = o := by
      intro o ho
      have hle := length_aimsAt_le hpositional hnodup hapart [o]
        fun p hp => List.mem_singleton.mpr (ho p hp)
      rw [List.length_singleton] at hle
      omega
    have hposition : ∀ p ∈ k.aimsAt diagonal c, p.channel = some .x ∨ p.channel = some .y :=
      fun p hp => Projection.isPositional_iff.mp (hpositional p (List.mem_filter.mp hp).1)
    refine ⟨?_, ?_, ?_, ?_⟩
    · by_contra hdiagonal
      refine hsingle (some c) fun p hp => ?_
      rcases Projection.aimsAt_iff.mp (List.mem_filter.mp hp).2 with hc | ⟨hd, _⟩
      · exact hc
      · exact absurd hd hdiagonal
    · obtain ⟨p, hp⟩ := List.exists_mem_of_length_pos (Nat.lt_of_lt_of_le Nat.zero_lt_two hlength)
      obtain ⟨hpk, haims⟩ := List.mem_filter.mp hp
      exact Projection.position_of_aimsAt (hpositional p hpk) haims
    · by_contra hx
      refine hsingle (some .y) fun p hp => (hposition p hp).resolve_left fun he => hx ?_
      exact ⟨p.field, he ▸ (List.mem_filter.mp hp).1⟩
    · by_contra hy
      refine hsingle (some .x) fun p hp => (hposition p hp).resolve_right fun he => hy ?_
      exact ⟨p.field, he ▸ (List.mem_filter.mp hp).1⟩
  · rintro ⟨rfl, hc, ⟨f, hf⟩, ⟨g, hg⟩⟩
    have hposition : c.isPositional = true := by
      rcases hc with rfl | rfl
      · rfl
      · rfl
    have hsubset : [⟨some .x, f⟩, ⟨some .y, g⟩] ⊆ k.aimsAt true c := by
      intro p hp
      have hp : p ∈ k.projections := by
        simp only [List.mem_cons, List.not_mem_nil, or_false] at hp
        rcases hp with rfl | rfl
        · exact hf
        · exact hg
      exact List.mem_filter.mpr ⟨hp, aimsAt_of_diagonal (hpositional p hp) hposition⟩
    exact (List.subperm_of_subset (by simp) hsubset).length_le

end Interval

end Component

/-! ## What a declaration reports -/

namespace Declaration
variable {d : Declaration} {scales : ScaleTable} {scope : List ViewId} {c : Channel}

theorem mem_bindingWarnings :
    d.warning (.scaleNotContinuous c) ∈ d.bindingWarnings scales scope ↔
      ((d.selection.isScaleBound && d.isGlobalInterval) = true ∧
        ∃ p ∈ d.kept, p.aimsAt d.content.isDiagonal c = true) ∧
      drivable? scales scope c = none := by
  rw [← exists_target_iff, bindingWarnings]
  split
  · rename_i hbound
    refine iff_of_false ?_ ?_
    · intro hw
      cases List.mem_singleton.mp hw
    · rintro ⟨⟨f, hf⟩, _⟩
      rw [targets_of_not_bound (by simp_all)] at hf
      cases hf
  · rw [List.mem_map]
    constructor
    · rintro ⟨⟨c', f⟩, ht, he⟩
      obtain ⟨ht, hnone⟩ := List.mem_filter.mp ht
      cases he
      exact ⟨⟨f, ht⟩, Option.isNone_iff_eq_none.mp hnone⟩
    · rintro ⟨⟨f, ht⟩, hnone⟩
      exact ⟨(c, f), List.mem_filter.mpr ⟨ht, Option.isNone_iff_eq_none.mpr hnone⟩, rfl⟩

theorem notMem_captureWarnings : d.warning (.scaleNotContinuous c) ∉ d.captureWarnings := by
  intro hmem
  rcases (of_mem_captureWarnings hmem).2 with hcode | hcode
  · cases hcode
  · cases hcode

/-- A scale that cannot be driven is reported for each projection that aims at it. -/
theorem count_bindingWarnings (hbound : (d.selection.isScaleBound && d.isGlobalInterval) = true)
    (hnone : drivable? scales scope c = none) :
    (d.bindingWarnings scales scope).count (d.warning (.scaleNotContinuous c)) =
      (d.kept.filter fun p => p.aimsAt d.content.isDiagonal c).length := by
  have hglobal : ¬ (d.selection.isScaleBound && !d.isGlobalInterval) = true := by simp_all
  have hkept : (d.targets.filter fun t => t.1 = c).length =
      (d.kept.filter fun p => p.aimsAt d.content.isDiagonal c).length := by
    rw [targets_of_bound hbound, filter_drivenChannels, List.length_map]
  rw [bindingWarnings, if_neg hglobal, List.count, List.countP_map, List.countP_filter, ← hkept,
    ← List.countP_eq_length_filter]
  refine List.countP_congr fun t _ => ?_
  by_cases ht : t.1 = c
  · simp [ht, hnone]
  · simp [ht, warning]

end Declaration

/-- Declarations are told apart by their view and their name. -/
theorem ViewTree.declarations_keys_nodup {spec : ViewSpec} {tree : ViewTree}
    (h : ofSpec spec = .ok tree) : (tree.declarations.map fun d => (d.view, d.name)).Nodup := by
  have hw := (ofSpec_wellFormed h).1
  have hkeys : (tree.declarations.map fun d => (d.view, d.name)) =
      tree.units.flatMap fun u => u.2.2.selections.entries.map fun e => (u.2.1, e.1) := by
    rw [declarations, List.map_flatMap]
    refine List.flatMap_congr fun u _ => ?_
    rw [declarationsOn, List.map_map]
    rfl
  rw [hkeys, List.nodup_flatMap]
  constructor
  · intro u _
    have hnames : u.2.2.selections.entries.map (fun e => (u.2.1, e.1)) =
        (u.2.2.selections.entries.map Prod.fst).map (Prod.mk u.2.1) := by
      rw [List.map_map]
      rfl
    rw [hnames]
    exact u.2.2.selections.distinct.map (Prod.mk_right_injective u.2.1)
  · refine (List.pairwise_map.mp (units_nodup hw)).imp_of_mem ?_
    rintro ⟨v, view, u⟩ ⟨v', view', u'⟩ hu hu' hne key hkey hkey'
    obtain ⟨e, _, rfl⟩ := List.mem_map.mp hkey
    obtain ⟨e', _, he⟩ := List.mem_map.mp hkey'
    obtain rfl : view' = view := (Prod.mk.inj he).1
    -- a name belongs to one view
    obtain ⟨n, hn, hname, _⟩ := exists_node_of_mem_units hu
    obtain ⟨n', hn', hname', _⟩ := exists_node_of_mem_units hu'
    have hfind := (find?_eq_some_iff (ofSpec_names_nodup h)).mpr ⟨n, hn, hname⟩
    have hfind' := (find?_eq_some_iff (ofSpec_names_nodup h)).mpr ⟨n', hn', hname'⟩
    exact hne (Option.some.inj (hfind.symm.trans hfind'))

/-- If only one element contributes, what is counted is its own contribution. -/
theorem count_flatMap_of_single {α β : Type} [DecidableEq β] {f : α → List β} {a : α} {b : β}
    {as : List α} (hnodup : as.Nodup) (ha : a ∈ as) (h : ∀ a' ∈ as, b ∈ f a' → a' = a) :
    (as.flatMap f).count b = (f a).count b := by
  induction as with
  | nil => cases ha
  | cons a₀ as ih =>
    obtain ⟨hfresh, hnodup⟩ := List.nodup_cons.mp hnodup
    rw [List.flatMap_cons, List.count_append]
    by_cases he : a₀ = a
    · subst he
      have hrest : (as.flatMap f).count b = 0 := by
        refine List.count_eq_zero.mpr fun hb => ?_
        obtain ⟨a', ha', hb⟩ := List.mem_flatMap.mp hb
        exact hfresh (h a' (List.mem_cons_of_mem _ ha') hb ▸ ha')
      rw [hrest, Nat.add_zero]
    · have hfirst : (f a₀).count b = 0 :=
        List.count_eq_zero.mpr fun hb => he (h a₀ List.mem_cons_self hb)
      have ha : a ∈ as := (List.mem_cons.mp ha).resolve_left (Ne.symm he)
      rw [hfirst, Nat.zero_add]
      exact ih hnodup ha fun a' ha' => h a' (List.mem_cons_of_mem _ ha')

/-! ## What a compilation reports -/

/-- How often it is reported that a selection of a view cannot drive the scale of a channel. -/
def reports (warnings : List Warning) (view selection : String) (c : Channel) : Nat :=
  warnings.countP fun w => w.code = .scaleBindingsContinuous ∧ w.view = view ∧
    w.selection = selection ∧ w.cause.channel? = some c

theorem Warning.code_eq_scaleBindingsContinuous_iff {w : Warning} :
    w.code = .scaleBindingsContinuous ↔ ∃ c, w.cause = .scaleNotContinuous c := by
  rw [code]
  cases w.cause <;> simp [WarningCause.code]

theorem reports_eq_count (warnings : List Warning) (view selection : String) (c : Channel) :
    reports warnings view selection c = warnings.count ⟨view, selection, .scaleNotContinuous c⟩ := by
  refine List.countP_congr fun w _ => ?_
  obtain ⟨view', selection', cause⟩ := w
  simp only [decide_eq_true_eq, beq_iff_eq, Warning.mk.injEq]
  constructor
  · rintro ⟨hcode, rfl, rfl, hc⟩
    obtain ⟨c', rfl⟩ := Warning.code_eq_scaleBindingsContinuous_iff.mp hcode
    obtain rfl := Option.some.inj hc
    exact ⟨rfl, rfl, rfl⟩
  · rintro ⟨rfl, rfl, rfl⟩
    exact ⟨rfl, rfl, rfl, rfl⟩

namespace Compilation
variable {spec : ViewSpec} {c : Compilation} {a : Artifact} {k : Component} {ch : Channel}

/-- The view finds no scale for the channel, or one that is discrete or binned. -/
def Undrivable (c : Compilation) (v : ViewId) (ch : Channel) : Prop :=
  c.scales.lookup c.tree v ch = .ok none ∨
    ∃ s, c.scales.lookup c.tree v ch = .ok (some s) ∧
      (s.type.isContinuous = false ∨ s.type.isBinned = true)

theorem drivable?_eq_none_iff (h : (ofSpec spec).result = .ok c) {v : ViewId} {scope : List ViewId}
    (hscope : c.tree.ancestors v = .ok scope) :
    Declaration.drivable? (.ofTree c.tree) scope ch = none ↔ c.Undrivable v ch := by
  obtain ⟨htree, hparse⟩ := ofSpec_steps h
  have hsome := drivable?_isSome_iff htree hparse (c := ch) hscope
  rw [← Option.not_isSome_iff_eq_none, hsome, Undrivable, ScaleTable.lookup_of_ancestors hscope]
  cases c.scales.nearest? scope ch with
  | none => simp
  | some s =>
    have htype : ¬ s.type.canBeDriven = true ↔
        s.type.isContinuous = false ∨ s.type.isBinned = true := by
      rw [ScaleType.canBeDriven]
      cases s.type.isContinuous <;> cases s.type.isBinned <;> simp
    simpa using htype

/-- A declaration of a specification becomes a component, and warns of its fields and its
scales. -/
theorem exists_component_of_declaration (h : (ofSpec spec).result = .ok c) {d : Declaration}
    (hd : d ∈ c.tree.declarations) :
    ∃ scope outer, c.tree.ancestors d.unit = .ok scope ∧
      (d.filled spec.head.config).component (.ofTree c.tree) scope outer ∈ c.registry.components ∧
      ((d.filled spec.head.config).parse c.tree (.ofTree c.tree)).warnings =
        (d.filled spec.head.config).captureWarnings ++
          (d.filled spec.head.config).bindingWarnings (.ofTree c.tree) scope := by
  obtain ⟨parsed, hparsed, _, hcomponents⟩ := parseSelections_ok (ofSpec_steps h).2
  obtain ⟨p, hp⟩ := exists_zip_of_mem_left hparsed hd
  have hok := List.forall₂_zip hparsed hp
  obtain ⟨_, scope, outer, hscope, _, rfl⟩ := Declaration.parse_ok hok
  refine ⟨scope, outer, hscope, ?_, Declaration.parse_warnings_of_ok hok hscope⟩
  rw [hcomponents]
  exact List.mem_map_of_mem (List.of_mem_zip hp).2

/-- Of scales that cannot be driven the selections warn, and the artifact does not. -/
theorem count_compile_warnings (h : (ofSpec spec).result = .ok c) (ha : c.artifact.result = .ok a)
    {w : Warning} (hcode : w.code = .scaleBindingsContinuous) :
    (compile spec).warnings.count w = (c.tree.declarations.flatMap fun d =>
      ((d.filled spec.head.config).parse c.tree (.ofTree c.tree)).warnings).count w := by
  have hscales : c.artifact.warnings.count w = 0 := by
    refine List.count_eq_zero.mpr fun hw => ?_
    rw [artifact_warnings ha] at hw
    obtain ⟨s, _, hs⟩ := List.mem_flatMap.mp hw
    cases hcode.symm.trans (Scale.code_of_mem_driver_warnings hs)
  rw [compile_warnings h, List.count_append, hscales, ofSpec_warnings h, Nat.add_zero]

theorem isDiagonal_filled (h : (ofSpec spec).result = .ok c) {d : Declaration}
    (hd : d ∈ c.tree.declarations) :
    c.tree.isDiagonal (d.filled spec.head.config).unit =
      (d.filled spec.head.config).content.isDiagonal := by
  have hunit := ViewTree.unit?_of_declaration (ViewTree.ofSpec_wellFormed (ofSpec_steps h).1).1 hd
  exact ViewTree.isDiagonal_of_unit? hunit

/-- What a declaration reports, said of its component. -/
theorem mem_parse_warnings_iff (h : (ofSpec spec).result = .ok c) {d : Declaration}
    (hd : d ∈ c.tree.declarations) {scope : List ViewId} {outer : Bool}
    (hscope : c.tree.ancestors d.unit = .ok scope)
    (hk : k = (d.filled spec.head.config).component (.ofTree c.tree) scope outer) :
    d.warning (.scaleNotContinuous ch) ∈
        ((d.filled spec.head.config).parse c.tree (.ofTree c.tree)).warnings ↔
      k.BoundToScales ∧ (∃ p ∈ k.projections, p.aimsAt (c.tree.isDiagonal k.unit) ch = true) ∧
        c.Undrivable k.unit ch := by
  obtain ⟨scope', _, hscope', _, hwarnings⟩ := exists_component_of_declaration h hd
  obtain rfl : scope' = scope := Except.ok.inj (hscope'.symm.trans hscope)
  have hbinding : (d.filled spec.head.config).warning (.scaleNotContinuous ch) ∈
      (d.filled spec.head.config).bindingWarnings (.ofTree c.tree) scope' ↔ _ :=
    Declaration.mem_bindingWarnings
  rw [← isDiagonal_filled h hd, and_assoc, drivable?_eq_none_iff h hscope,
    ← Declaration.boundToScales_iff] at hbinding
  rw [hwarnings, List.mem_append, hk]
  exact (or_iff_right Declaration.notMem_captureWarnings).trans hbinding

theorem mem_warnings_iff (h : (ofSpec spec).result = .ok c) (ha : c.artifact.result = .ok a)
    {w : Warning} :
    w ∈ (compile spec).warnings ∧ w.code = .scaleBindingsContinuous ↔
      ∃ k ∈ c.registry.components, ∃ ch, c.tree.name k.unit = .ok w.view ∧ w.selection = k.name ∧
        w.cause = .scaleNotContinuous ch ∧ k.BoundToScales ∧
        (∃ p ∈ k.projections, p.aimsAt (c.tree.isDiagonal k.unit) ch = true) ∧
        c.Undrivable k.unit ch := by
  have hmem : w.code = .scaleBindingsContinuous → (w ∈ (compile spec).warnings ↔
      ∃ d ∈ c.tree.declarations,
        w ∈ ((d.filled spec.head.config).parse c.tree (.ofTree c.tree)).warnings) := by
    intro hcode
    rw [← List.count_pos_iff, count_compile_warnings h ha hcode, List.count_pos_iff,
      List.mem_flatMap]
  constructor
  · rintro ⟨hw, hcode⟩
    obtain ⟨d, hd, hw⟩ := (hmem hcode).mp hw
    obtain ⟨scope, outer, hscope, hk, _⟩ := exists_component_of_declaration h hd
    obtain ⟨ch, hcause⟩ := Warning.code_eq_scaleBindingsContinuous_iff.mp hcode
    have heq := (Declaration.of_mem_parse_warnings hw).1
    rw [hcause] at heq
    subst heq
    exact ⟨_, hk, ch, ViewTree.name_of_mem_units (ViewTree.exists_unit_of_declaration hd).1, rfl,
      rfl, (mem_parse_warnings_iff h hd hscope rfl).mp hw⟩
  · rintro ⟨k, hk, ch, hview, hselection, hcause, hreport⟩
    obtain ⟨d, hd, _, scope, outer, hscope, _, hkd⟩ :=
      exists_declaration_of_component (ofSpec_steps h).2 hk
    have hcode := Warning.code_eq_scaleBindingsContinuous_iff.mpr ⟨ch, hcause⟩
    refine ⟨(hmem hcode).mpr ⟨d, hd, ?_⟩, hcode⟩
    have heq : w = d.warning (.scaleNotContinuous ch) := by
      have hname := ViewTree.name_of_mem_units (ViewTree.exists_unit_of_declaration hd).1
      rw [hkd] at hview hselection
      obtain ⟨view, selection, cause⟩ := w
      cases Except.ok.inj (hname.symm.trans hview)
      cases hselection
      cases hcause
      rfl
    rw [heq]
    exact (mem_parse_warnings_iff h hd hscope hkd).mpr hreport

theorem reports_eq_length (h : (ofSpec spec).result = .ok c) (ha : c.artifact.result = .ok a)
    (hk : k ∈ c.registry.components) {view : String} (hview : c.tree.name k.unit = .ok view)
    (hbound : k.BoundToScales) (hscale : c.Undrivable k.unit ch) :
    reports (compile spec).warnings view k.name ch =
      (k.aimsAt (c.tree.isDiagonal k.unit) ch).length := by
  obtain ⟨htree, hparse⟩ := ofSpec_steps h
  have hkeys := ViewTree.declarations_keys_nodup htree
  obtain ⟨d, hd, _, scope', outer', hscope', _, rfl⟩ := exists_declaration_of_component hparse hk
  obtain ⟨scope, _, hscope, _, hwarnings⟩ := exists_component_of_declaration h hd
  obtain rfl : scope' = scope := Except.ok.inj (hscope'.symm.trans hscope)
  obtain rfl : d.view = view := Except.ok.inj
    ((ViewTree.name_of_mem_units (ViewTree.exists_unit_of_declaration hd).1).symm.trans hview)
  -- no other declaration has the view and the name
  have hsingle : ∀ d' ∈ c.tree.declarations, d.warning (.scaleNotContinuous ch) ∈
      ((d'.filled spec.head.config).parse c.tree (.ofTree c.tree)).warnings → d' = d := by
    intro d' hd' hmem
    have heq := (Declaration.of_mem_parse_warnings hmem).1
    have hkey : (d'.view, d'.name) = (d.view, d.name) :=
      Prod.ext (congrArg Warning.view heq).symm (congrArg Warning.selection heq).symm
    exact List.inj_on_of_nodup_map hkeys hd' hd hkey
  have hcapture : (d.filled spec.head.config).captureWarnings.count
      (d.warning (.scaleNotContinuous ch)) = 0 :=
    List.count_eq_zero.mpr Declaration.notMem_captureWarnings
  have hnone := (drivable?_eq_none_iff h hscope).mpr hscale
  have hbinding := Declaration.count_bindingWarnings (Declaration.boundToScales_iff.mp hbound) hnone
  rw [reports_eq_count]
  calc (compile spec).warnings.count (d.warning (.scaleNotContinuous ch))
      = ((d.filled spec.head.config).parse c.tree (.ofTree c.tree)).warnings.count
          (d.warning (.scaleNotContinuous ch)) := by
        rw [count_compile_warnings h ha rfl]
        exact count_flatMap_of_single (List.Nodup.of_map _ hkeys) hd hsingle
    _ = ((d.filled spec.head.config).bindingWarnings (.ofTree c.tree) scope').count
          (d.warning (.scaleNotContinuous ch)) := by
        rw [hwarnings, List.count_append, hcapture, Nat.zero_add]
    _ = _ := by
        rw [← isDiagonal_filled h hd] at hbinding
        exact hbinding

/-- Nothing is reported, or one component reports a scale. -/
theorem reports_cases (h : (ofSpec spec).result = .ok c) (ha : c.artifact.result = .ok a)
    (view selection : String) (ch : Channel) :
    reports (compile spec).warnings view selection ch = 0 ∨
      ∃ k ∈ c.registry.components, c.tree.name k.unit = .ok view ∧ k.name = selection ∧
        k.BoundToScales ∧ c.Undrivable k.unit ch ∧
        reports (compile spec).warnings view selection ch =
          (k.aimsAt (c.tree.isDiagonal k.unit) ch).length := by
  rcases Nat.eq_zero_or_pos (reports (compile spec).warnings view selection ch) with hzero | hpos
  · exact Or.inl hzero
  · rw [reports_eq_count] at hpos
    obtain ⟨k, hk, ch', hview, rfl, hcause, hbound, _, hscale⟩ :=
      (mem_warnings_iff h ha).mp ⟨List.count_pos_iff.mp hpos, rfl⟩
    obtain rfl := WarningCause.scaleNotContinuous.inj hcause
    exact Or.inr ⟨k, hk, hview, rfl, hbound, hscale, reports_eq_length h ha hk hview hbound hscale⟩

theorem notMem_scales_of_undrivable (h : (ofSpec spec).result = .ok c)
    (hk : k ∈ c.registry.components) (hscale : c.Undrivable k.unit ch) : ch ∉ k.scales := by
  obtain ⟨htree, hparse⟩ := ofSpec_steps h
  intro hmem
  obtain ⟨_, _, s, hs, hdriven⟩ := (mem_scales_iff htree hparse hk).mp hmem
  obtain ⟨hcontinuous, hbinned⟩ := (Bool.and_eq_true _ _).mp hdriven
  rcases hscale with hnone | ⟨s', hs', htype⟩
  · cases hs.symm.trans hnone
  · obtain rfl := Option.some.inj (Except.ok.inj (hs.symm.trans hs'))
    rcases htype with hdiscrete | hbin
    · cases hcontinuous.symm.trans hdiscrete
    · rw [hbin] at hbinned
      cases hbinned

/-- The component wants to drive a scale that cannot be driven, through both positions of a view
on the diagonal. -/
structure ReportedTwice (c : Compilation) (k : Component) (ch : Channel) : Prop where
  bound : k.BoundToScales
  undrivable : c.Undrivable k.unit ch
  diagonal : c.tree.isDiagonal k.unit = true
  position : ch = .x ∨ ch = .y
  horizontal : ∃ f, ⟨some .x, f⟩ ∈ k.projections
  vertical : ∃ f, ⟨some .y, f⟩ ∈ k.projections

/-- Selections report the scales that they cannot drive. -/
structure ReportsScales (c : Compilation) (warnings : List Warning) : Prop where
  /-- There is a report on a selection and a channel exactly if the selection is bound to scales,
  one of its projections aims at the channel, and the view has no scale there that can be
  driven. -/
  reported : ∀ w, w ∈ warnings ∧ w.code = .scaleBindingsContinuous ↔
    ∃ k ∈ c.registry.components, ∃ ch, c.tree.name k.unit = .ok w.view ∧ w.selection = k.name ∧
      w.cause = .scaleNotContinuous ch ∧ k.BoundToScales ∧
      (∃ p ∈ k.projections, p.aimsAt (c.tree.isDiagonal k.unit) ch = true) ∧
      c.Undrivable k.unit ch
  /-- Such a scale is not among those that the selection drives. -/
  notDriven : ∀ k ∈ c.registry.components, ∀ ch, c.Undrivable k.unit ch → ch ∉ k.scales
  /-- There are at most two reports on a selection and a channel. -/
  twice : ∀ view selection ch, reports warnings view selection ch ≤ 2
  /-- There is at most one, unless both positions of a view on the diagonal give cause. -/
  once : ∀ view selection ch, reports warnings view selection ch ≤ 1 ↔
    ¬ ∃ k ∈ c.registry.components, c.tree.name k.unit = .ok view ∧ k.name = selection ∧
      c.ReportedTwice k ch

theorem reportsScales (h : (ofSpec spec).result = .ok c) (ha : c.artifact.result = .ok a) :
    c.ReportsScales (compile spec).warnings := by
  obtain ⟨htree, hparse⟩ := ofSpec_steps h
  have hpositional : ∀ k ∈ c.registry.components, k.BoundToScales →
      ∀ p ∈ k.projections, p.isPositional :=
    fun k hk hbound => (declaredIn h hk).positional hbound.1
  have hnodup : ∀ k ∈ c.registry.components, k.projections.Nodup :=
    fun k hk => List.Nodup.of_map _ (declaredIn h hk).fields_nodup
  have hapart : ∀ k ∈ c.registry.components, k.ChannelsApart :=
    fun k hk => channelsApart_of_component htree hparse hk
  constructor
  case reported => exact fun w => mem_warnings_iff h ha
  case notDriven => exact fun k hk ch => notMem_scales_of_undrivable h hk
  case twice =>
    intro view selection ch
    rcases reports_cases h ha view selection ch with hzero | ⟨k, hk, _, _, hbound, _, hlength⟩
    · omega
    · rw [hlength]
      exact Component.length_aimsAt_le_two (hpositional k hk hbound) (hnodup k hk) (hapart k hk)
  case once =>
    intro view selection ch
    constructor
    · rintro hle ⟨k, hk, hview, rfl, htwice⟩
      rw [reports_eq_length h ha hk hview htwice.bound htwice.undrivable] at hle
      have htwo := (Component.two_le_length_aimsAt_iff (hpositional k hk htwice.bound) (hnodup k hk)
        (hapart k hk)).mpr
          ⟨htwice.diagonal, htwice.position, htwice.horizontal, htwice.vertical⟩
      omega
    · intro hnot
      rcases reports_cases h ha view selection ch with
        hzero | ⟨k, hk, hview, hname, hbound, hscale, hlength⟩
      · omega
      · by_contra hgt
        have htwo : 2 ≤ (k.aimsAt (c.tree.isDiagonal k.unit) ch).length := by omega
        obtain ⟨hdiagonal, hposition, hx, hy⟩ := (Component.two_le_length_aimsAt_iff
          (hpositional k hk hbound) (hnodup k hk) (hapart k hk)).mp htwo
        exact hnot ⟨k, hk, hview, hname, hbound, hscale, hdiagonal, hposition, hx, hy⟩

end Compilation

/-- **Scales that cannot be driven are reported.**  There is a report on a selection and a channel
exactly if the selection wants to drive a scale there that is missing, discrete or binned.  It is
the only one, except on the diagonal, where both positions may ask for the scale. -/
theorem compile_reports_scales {spec : ViewSpec} {a : Artifact}
    (h : (compile spec).result = .ok a) :
    ∃ c, (Compilation.ofSpec spec).result = .ok c ∧ c.artifact.result = .ok a ∧
      c.ReportsScales (compile spec).warnings := by
  obtain ⟨c, hc, ha⟩ := compile_ok h
  exact ⟨c, hc, ha, Compilation.reportsScales hc ha⟩

/-- A cell on the diagonal whose positions show two fields, one of them as a category. -/
def ViewSpec.categoryOnDiagonal : ViewSpec :=
  .repeated default (.grid ["A"] ["A"])
    (points [(.x, .single ⟨some (.repeated .column), .nominal, false, none, .data⟩),
        (.y, .numeric "B")]
      [("grid", ⟨.interval, { Settings.none with bind := some .scales }⟩)])

theorem compile_reports_scales_categoryOnDiagonal :
    ∃ a, (compile .categoryOnDiagonal).result = .ok a ∧
      (compile .categoryOnDiagonal).warnings ≠ [] ∧
      ∃ c, (Compilation.ofSpec .categoryOnDiagonal).result = .ok c ∧ c.artifact.result = .ok a ∧
        c.ReportsScales (compile .categoryOnDiagonal).warnings :=
  ⟨_, rfl, by decide +kernel, @compile_reports_scales .categoryOnDiagonal _ rfl⟩

/-- One scale of one selection is reported twice. -/
theorem categoryOnDiagonal_reported_twice :
    (∃ a, (compile .categoryOnDiagonal).result = .ok a) ∧
      reports (compile .categoryOnDiagonal).warnings "repeat_row_0_column_0" "grid" .x = 2 :=
  ⟨⟨_, rfl⟩, by decide +kernel⟩

end BrushLink
