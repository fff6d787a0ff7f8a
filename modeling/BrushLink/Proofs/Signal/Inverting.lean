import BrushLink.Proofs.Scale.Listing
import BrushLink.Proofs.Scale.Shown

/-! # Scales of brushed channels

A brush turns pixels into data through a scale, which its signals call by name.  An interval
captures through positions only, and what it captures there its view shows, so the view finds a
scale (`exists_lookup_of_shown`), and this scale is among the compiled ones of the view or of a
view above it (`exists_compiled_of_lookup`).  So the name is always that of a scale
(`compile_brushes_on_scales`); the name of the channel, which would be taken without a scale, is
never taken for one.
-/
namespace BrushLink

/-! ## Calls of scales -/

/-- The handlers of a signal. -/
def Signal.handlers : Signal → List Handler
  | .declared _ _ _ on => on
  | .push _ => []

/-- The handler waits for an extent in pixels, and looks it up in reverse on a scale. -/
def Handler.Inverts (h : Handler) (scale : String) : Prop :=
  ∃ extent, h.events = .signal extent ∧
    h.update = extent ++ "[0] === " ++ extent ++ "[1] ? null : invert(" ++ Text.quote scale ++
      ", " ++ extent ++ ")"

theorem Text.quote_inj {s t : String} (h : quote s = quote t) : s = t := by
  have hchars := congrArg String.toList h
  rw [toList_quote, toList_quote] at hchars
  exact String.toList_inj.mp (quoteChars_append_inj (r := []) (s := []) (by rw [hchars])).1

theorem Handler.Inverts.eq {h : Handler} {n m : String} (hn : h.Inverts n) (hm : h.Inverts m) :
    n = m := by
  obtain ⟨extent, hevents, hupdate⟩ := hn
  obtain ⟨extent', hevents', hupdate'⟩ := hm
  obtain rfl := Events.signal.inj (hevents.symm.trans hevents')
  have hquote := congrArg String.toList (hupdate.symm.trans hupdate')
  simp only [String.toList_append, List.append_assoc, List.append_cancel_left_eq,
    List.append_cancel_right_eq] at hquote
  exact Text.quote_inj (String.toList_inj.mp hquote)

namespace Component
variable {k : Component} {view : String} {scaleName : Channel → Option String} {r : Signal}
  {h : Handler} {n : String}

/-- Only the data signal of a channel that is not driven inverts a scale. -/
theorem inverts_of_mem_brushSignals {c : Channel} {f : Field}
    (hr : r ∈ k.brushSignals scaleName c f) (hh : h ∈ r.handlers) (hn : h.Inverts n) :
    k.drives c = false ∧ n = (scaleName c).getD c.name := by
  rw [brushSignals] at hr
  split at hr
  · split at hr
    · obtain rfl := List.mem_singleton.mp hr
      cases hh
    · obtain rfl := List.mem_singleton.mp hr
      cases hh
  · rename_i hdrives
    refine ⟨Bool.not_eq_true _ ▸ hdrives, ?_⟩
    rcases List.mem_cons.mp hr with rfl | hr
    · -- the extent in pixels waits for the events of the mouse
      obtain ⟨_, hevents, _⟩ := hn
      simp only [visualSignal, Signal.handlers, List.mem_cons, List.not_mem_nil, or_false] at hh
      rcases hh with rfl | rfl
      · cases hevents
      · cases hevents
    · obtain rfl := List.mem_singleton.mp hr
      obtain rfl := List.mem_singleton.mp hh
      exact hn.eq ⟨_, rfl, rfl⟩

theorem inverts_of_mem_signals (hr : r ∈ k.signals view scaleName) (hh : h ∈ r.handlers)
    (hn : h.Inverts n) :
    k.type = .interval ∧
      ∃ p ∈ k.projections, ∃ c, p.channel = some c ∧ k.drives c = false ∧
        n = (scaleName c).getD c.name := by
  have hpoint : r ∉ k.pointSignals view := by
    intro hr
    obtain ⟨_, hevents, _⟩ := hn
    rcases List.mem_cons.mp hr with rfl | hr
    · obtain rfl := List.mem_singleton.mp hh
      cases hevents
    · obtain ⟨i, hi, rfl⟩ := List.mem_mapIdx.mp hr
      cases hh
  rw [signals_eq] at hr
  rcases List.mem_append.mp hr with hr | hr
  · rw [ownSignals] at hr
    split at hr
    · rename_i htype
      refine ⟨htype, ?_⟩
      rcases List.mem_append.mp hr with hr | hr
      · obtain ⟨b, hb, hr⟩ := List.mem_flatMap.mp hr
        obtain ⟨p, hp, hc, _⟩ := mem_brushed.mp hb
        exact ⟨p, hp, b.1, hc, inverts_of_mem_brushSignals hr hh hn⟩
      · -- the tuple waits for several signals at once
        obtain rfl := List.mem_singleton.mp hr
        obtain rfl := List.mem_singleton.mp hh
        obtain ⟨_, hevents, _⟩ := hn
        cases hevents
    · exact absurd hr hpoint
    · exact absurd hr hpoint
  · split at hr
    · cases hr
    · obtain rfl := List.mem_singleton.mp hr
      cases hh

theorem extentSignal_mem_signals (htype : k.type = .interval) {p : Projection}
    (hp : p ∈ k.projections) {c : Channel} (hc : p.channel = some c) (hdrives : k.drives c = false) :
    k.extentSignal ((scaleName c).getD c.name) c p.field ∈ k.signals view scaleName := by
  have hbrush : k.extentSignal ((scaleName c).getD c.name) c p.field ∈
      k.brushSignals scaleName c p.field := by
    rw [brushSignals, hdrives]
    exact List.mem_cons_of_mem _ (List.mem_singleton.mpr rfl)
  have hb : (c, p.field) ∈ k.brushed := mem_brushed.mpr ⟨p, hp, hc, rfl⟩
  rw [signals_eq, ownSignals, htype]
  exact List.mem_append_left _ (List.mem_append_left _ (List.mem_flatMap.mpr ⟨_, hb, hbrush⟩))

end Component

/-- A view calls a scale by the name of the one that it finds. -/
theorem unitSignals_eq {tree : ViewTree} {scales : ScaleTable} {v : ViewId} {n : ViewNode}
    {ks : List Component} (hn : tree.get? v = some n) {rs : List Signal}
    (h : unitSignals tree scales v ks = .ok rs) :
    rs = ks.flatMap fun k => k.signals n.name fun c =>
      (scales.nearest? (tree.climb tree.size v) c).map Scale.name := by
  rw [unitSignals] at h
  split at h
  · rename_i hempty
    rw [List.isEmpty_iff.mp hempty]
    exact (Except.ok.inj h).symm
  · rw [ViewTree.name_of_get? hn, ViewTree.ancestors_of_get? hn] at h
    exact (Except.ok.inj h).symm

/-! ## The scale of a channel -/

namespace Compilation
variable {spec : ViewSpec} {c : Compilation} {a : Artifact} {v : ViewId} {u : UnitView}
  {w : ViewId × ViewNode} {cv : CompiledView} {ch : Channel} {f : Field} {s : Scale}

/-- A view finds a scale for a channel on which it shows a field. -/
theorem exists_lookup_of_shown (h : (ofSpec spec).result = .ok c) (hu : c.tree.unit? v = some u)
    (hf : u.field? ch = some f) (hch : ch.hasScale = true) :
    ∃ s, c.scales.lookup c.tree v ch = .ok (some s) := by
  obtain ⟨htree, hparse⟩ := ofSpec_steps h
  obtain ⟨hw, hl⟩ := ViewTree.ofSpec_wellFormed htree
  obtain ⟨s, _, hfound⟩ := ScaleTable.lookup_of_field hw hl hu hch (Option.isSome_of_eq_some hf)
  obtain ⟨scope, hscope, hnearest⟩ := ScaleTable.lookup_eq_ok.mp hfound
  obtain ⟨parsed, _, hscales, _⟩ := parseSelections_ok hparse
  rw [hscales, ScaleTable.lookup_of_ancestors hscope,
    ScaleTable.nearest?_bindAll (ScaleTable.placed_ofTree hw hl), hnearest]
  exact ⟨_, rfl⟩

/-- A scale that a view finds is compiled for it or for a view above it. -/
theorem exists_compiled_of_lookup (h : (ofSpec spec).result = .ok c)
    (ha : c.artifact.result = .ok a) (hs : c.scales.lookup c.tree v ch = .ok (some s)) :
    ∃ w cw cs, (w, cw) ∈ c.tree.preorder.zip a.views ∧ c.tree.Within v w.1 ∧ s.owner = w.1 ∧
      cs ∈ cw.scales ∧ s.CompilesTo cs := by
  obtain ⟨htree, hparse⟩ := ofSpec_steps h
  have hw := (ViewTree.ofSpec_wellFormed htree).1
  have hplaced := placed_of_parse htree hparse
  obtain ⟨scope, hscope, hnearest⟩ := ScaleTable.lookup_eq_ok.mp hs
  obtain ⟨howner, rfl, hget⟩ := ScaleTable.owner_mem_of_nearest? hplaced hnearest
  obtain ⟨n, hn, _⟩ := scale_named h hget
  obtain ⟨cw, hcw⟩ := exists_zip_of_mem_left (forall₂_views ha) ((ViewTree.mem_preorder hw).mpr hn)
  have howned := (List.forall₂_zip (forall₂_views ha) hcw).2
  have hmem : s ∈ c.scales.ownedBy s.owner :=
    (ScaleTable.mem_ownedBy hplaced).mpr ⟨(ScaleTable.mem_toList hplaced).mpr hget, rfl⟩
  obtain ⟨cs, hcs⟩ := exists_zip_of_mem_left howned hmem
  refine ⟨_, cw, cs, hcw, ?_, rfl, (List.of_mem_zip hcs).2, List.forall₂_zip howned hcs⟩
  obtain ⟨m, hm, rfl⟩ := ViewTree.map_node_eq_ok.mp hscope
  exact ViewTree.Within.of_mem_climb howner

/-- What an interval captures is shown on a position, and has a scale there. -/
theorem exists_scale_of_interval (h : (ofSpec spec).result = .ok c) {k : Component}
    (hk : k ∈ c.registry.components) (htype : k.type = .interval) {p : Projection}
    (hp : p ∈ k.projections) :
    ∃ ch u s, p.channel = some ch ∧ (ch = .x ∨ ch = .y) ∧ c.tree.unit? k.unit = some u ∧
      u.field? ch = some p.field ∧ c.scales.lookup c.tree k.unit ch = .ok (some s) ∧
      p.field ∈ s.fields := by
  obtain ⟨htree, hparse⟩ := ofSpec_steps h
  obtain ⟨u, hu, hshows⟩ := exists_unit_of_component htree hparse hk
  obtain ⟨ch, hch, hxy, hscale⟩ :
      ∃ ch, p.channel = some ch ∧ (ch = .x ∨ ch = .y) ∧ ch.hasScale = true := by
    rcases Projection.isPositional_iff.mp ((declaredIn h hk).positional htype p hp) with hx | hy
    · exact ⟨.x, hx, Or.inl rfl, rfl⟩
    · exact ⟨.y, hy, Or.inr rfl, rfl⟩
  have hf := hshows p hp ch hch
  obtain ⟨s, hs⟩ := exists_lookup_of_shown h hu hf hscale
  exact ⟨ch, u, s, hch, hxy, hu, hf, hs, shown_of_lookup htree hparse hu hf hs⟩

/-- The signals of a view call the scales that it finds by their names. -/
theorem signals_eq_of_view (h : (ofSpec spec).result = .ok c) (ha : c.artifact.result = .ok a)
    (hv : (w, cv) ∈ c.tree.preorder.zip a.views) :
    cv.signals = (c.registry.componentsOf w.1).flatMap fun k => k.signals w.2.name fun ch =>
      (c.scales.nearest? (c.tree.climb c.tree.size w.1) ch).map Scale.name :=
  unitSignals_eq (ViewTree.get?_of_mem_preorder (List.of_mem_zip hv).1) (signals_of_view h ha hv)

/-- Brushes are read through scales of the artifact. -/
structure BrushesOnScales (c : Compilation) (a : Artifact) : Prop where
  /-- What an interval captures its view shows on a position, and the view finds a scale for it
  that shows the field and is compiled for the view or for one above it.  Unless the scale is
  driven, the view has a data signal that inverts it. -/
  brushed : ∀ k ∈ c.registry.components, k.type = .interval → ∀ p ∈ k.projections,
    ∃ ch u s, p.channel = some ch ∧ (ch = .x ∨ ch = .y) ∧
      c.tree.unit? k.unit = some u ∧ u.field? ch = some p.field ∧
      c.scales.lookup c.tree k.unit ch = .ok (some s) ∧ p.field ∈ s.fields ∧
      (∃ w cw cs, (w, cw) ∈ c.tree.preorder.zip a.views ∧ c.tree.Within k.unit w.1 ∧
        s.owner = w.1 ∧ cs ∈ cw.scales ∧ s.CompilesTo cs) ∧
      (k.drives ch = false → ∃ v cv, (v, cv) ∈ c.tree.preorder.zip a.views ∧ v.1 = k.unit ∧
        k.extentSignal s.name ch p.field ∈ cv.signals)
  /-- Whatever the signals of a view invert is a scale that the view finds for a channel of one
  of its intervals, and is a scale of the artifact. -/
  inverted : ∀ v cv, (v, cv) ∈ c.tree.preorder.zip a.views → ∀ r ∈ cv.signals, ∀ h ∈ r.handlers,
    ∀ n, h.Inverts n → ∃ k ∈ c.registry.componentsOf v.1, k.type = .interval ∧
      ∃ p ∈ k.projections, ∃ ch s, p.channel = some ch ∧
        c.scales.lookup c.tree v.1 ch = .ok (some s) ∧ s.name = n ∧ ∃ cs ∈ a.scales, cs.name = n

/-- The name under which a view calls a scale that it finds is the name of the scale. -/
theorem scaleName_of_lookup (hv : (w, cv) ∈ c.tree.preorder.zip a.views)
    (hs : c.scales.lookup c.tree w.1 ch = .ok (some s)) :
    ((c.scales.nearest? (c.tree.climb c.tree.size w.1) ch).map Scale.name).getD ch.name =
      s.name := by
  have hn := ViewTree.get?_of_mem_preorder (List.of_mem_zip hv).1
  rw [ScaleTable.lookup_of_ancestors (ViewTree.ancestors_of_get? hn)] at hs
  rw [Except.ok.inj hs]
  rfl

theorem brushesOnScales (h : (ofSpec spec).result = .ok c) (ha : c.artifact.result = .ok a) :
    c.BrushesOnScales a := by
  constructor
  case brushed =>
    intro k hk htype p hp
    obtain ⟨ch, u, s, hch, hxy, hu, hf, hs, hfields⟩ := exists_scale_of_interval h hk htype hp
    refine ⟨ch, u, s, hch, hxy, hu, hf, hs, hfields, exists_compiled_of_lookup h ha hs, ?_⟩
    intro hdrives
    obtain ⟨v, cv, _, hv, hkv, _⟩ := exists_view_of_component h ha hk
    obtain ⟨_, hunit⟩ := Registry.mem_componentsOf.mp hkv
    refine ⟨v, cv, hv, hunit.symm, ?_⟩
    rw [hunit] at hs
    rw [signals_eq_of_view h ha hv, ← scaleName_of_lookup hv hs]
    exact List.mem_flatMap.mpr ⟨k, hkv, Component.extentSignal_mem_signals htype hp hch hdrives⟩
  case inverted =>
    intro v cv hv r hr handler hh n hn
    rw [signals_eq_of_view h ha hv] at hr
    obtain ⟨k, hkv, hr⟩ := List.mem_flatMap.mp hr
    obtain ⟨htype, p, hp, ch, hch, _, rfl⟩ := Component.inverts_of_mem_signals hr hh hn
    obtain ⟨hk, hunit⟩ := Registry.mem_componentsOf.mp hkv
    obtain ⟨ch', u, s, hch', _, _, _, hs, _⟩ := exists_scale_of_interval h hk htype hp
    obtain rfl := Option.some.inj (hch.symm.trans hch')
    rw [hunit] at hs
    have hname := scaleName_of_lookup hv hs
    obtain ⟨w, cw, cs, hw, _, _, hcs, hcompiled⟩ := exists_compiled_of_lookup h ha hs
    refine ⟨k, hkv, htype, p, hp, ch, s, hch, hs, hname.symm, cs, ?_, ?_⟩
    · exact List.mem_flatMap.mpr ⟨cw, (List.of_mem_zip hw).2, hcs⟩
    · exact hcompiled.name.trans hname.symm

end Compilation

/-- **Brushes are read through scales.**  In the artifact of a specification that compiles, every
channel that an interval captures has a scale that shows its field, and whatever the signals of a
view invert is a scale of the artifact. -/
theorem compile_brushes_on_scales {spec : ViewSpec} {a : Artifact}
    (h : (compile spec).result = .ok a) :
    ∃ c, (Compilation.ofSpec spec).result = .ok c ∧ c.artifact.result = .ok a ∧
      c.BrushesOnScales a := by
  obtain ⟨c, hc, ha⟩ := compile_ok h
  exact ⟨c, hc, ha, Compilation.brushesOnScales hc ha⟩

/-- A brush on two scales, one of which is shared with the view beside it. -/
def ViewSpec.sharedBrush : ViewSpec :=
  .concatenated { (default : ViewHead) with resolve := Table.ofList [(.x, .shared)] }
    [points [(.x, .numeric "A"), (.y, .numeric "B")] [("brush", ⟨.interval, .none⟩)],
      points [(.x, .numeric "C")] []]

theorem compile_brushes_on_scales_sharedBrush :
    ∃ a, (compile .sharedBrush).result = .ok a ∧
      a.scales.map CompiledScale.name = ["x", "concat_0_y"] ∧
      (∃ cv ∈ a.views, ∃ r ∈ cv.signals, ∃ h ∈ r.handlers,
        h.update = "brush_x_px[0] === brush_x_px[1] ? null : invert(\"x\", brush_x_px)") ∧
      ∃ c, (Compilation.ofSpec .sharedBrush).result = .ok c ∧ c.artifact.result = .ok a ∧
        c.BrushesOnScales a :=
  ⟨_, rfl, by decide +kernel, by decide +kernel, @compile_brushes_on_scales .sharedBrush _ rfl⟩

end BrushLink
