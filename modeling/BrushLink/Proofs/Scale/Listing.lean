import BrushLink.Proofs.Assembly
import BrushLink.Proofs.Scale.Binding
import BrushLink.Proofs.Selection.Driving
import BrushLink.Proofs.View.Creation

/-! # The scales of an artifact

The table of scales is known by owner and channel, and the artifact lists scales view by
view.  Every owner is a view of the tree (`ScaleTable.named_ofTree`), the walk meets each
view once, and a view lists what it owns, so going through the artifact is going through
the table (`ScaleTable.flatMap_ownedBy_perm`).

The name of a scale is made of the name of its owner and that of its channel.  Names of
views are free and may look like anything, but they differ, and no name of a channel has
an underscore.  So from the name of a scale both can be read off (`scaleName_inj`), and no
two scales of an artifact have the same name (`compile_lists_scales`).
-/
namespace BrushLink

/-! ## Names of scales -/

namespace Channel

theorem mem_all (c : Channel) : c ∈ all := by
  cases c <;> decide

theorem all_pairwise : all.Pairwise fun c d => c.rank < d.rank := by decide

theorem find?_name (c : Channel) : Vocabulary.find? Channel c.name = some c := by
  cases c <;> rfl

theorem name_injective : Function.Injective name := by
  intro c d h
  have hfind := c.find?_name
  rw [h, d.find?_name] at hfind
  exact (Option.some.inj hfind).symm

theorem underscore_notMem_name (c : Channel) : '_' ∉ c.name.toList := by
  cases c <;> decide

/-- No name that is put together has the name of a channel. -/
theorem name_ne_joined (c : Channel) (s t : String) : c.name ≠ joined s t := by
  intro h
  apply c.underscore_notMem_name
  rw [h, toList_joined]
  exact List.mem_append_right _ List.mem_cons_self

end Channel

theorem joined_channel_inj {s s' : String} {c c' : Channel}
    (h : joined s c.name = joined s' c'.name) : s = s' ∧ c = c' := by
  by_cases hs : s = s'
  · subst hs
    exact ⟨rfl, Channel.name_injective (joined_inj.mp h)⟩
  · -- one beginning continues the other, so the name of a channel has an underscore
    rcases (joined_eq_joined_iff hs).mp h with ⟨r, _, hc⟩ | ⟨r, _, hc⟩
    · exact absurd hc (c.name_ne_joined _ _)
    · exact absurd hc (c'.name_ne_joined _ _)

/-- The name of a scale tells its channel, and its owner as far as the name of the owner
does. -/
theorem ScaleRequest.scaleName_inj {o o' : ViewId} {s s' : String} {c c' : Channel}
    (hs : s = s' → o = o') (h : scaleName o s c = scaleName o' s' c') : o = o' ∧ c = c' := by
  unfold scaleName at h
  split at h
  · rename_i ho
    split at h
    · rename_i ho'
      exact ⟨ho.trans ho'.symm, Channel.name_injective h⟩
    · exact absurd h (c.name_ne_joined _ _)
  · split at h
    · exact absurd h.symm (c'.name_ne_joined _ _)
    · obtain ⟨he, hc⟩ := joined_channel_inj h
      exact ⟨hs he, hc⟩

/-! ## What a view owns -/

namespace ScaleTable
variable {t : ScaleTable} {v : ViewId} {s : Scale}

theorem mem_toList (h : t.Placed) : s ∈ t.toList ↔ t.get? s.owner s.channel = some s := by
  constructor
  · intro hs
    obtain ⟨o, c, hget⟩ := exists_get?_of_mem_toList hs
    obtain ⟨rfl, rfl⟩ := h o c s hget
    exact hget
  · intro hget
    exact List.mem_map.mpr ⟨_, Table.get?_eq_some_iff.mp hget, rfl⟩

/-- No scale is listed twice in the table. -/
theorem toList_nodup (h : t.Placed) : t.toList.Nodup := by
  have hkeys : t.toList.map (fun s => (s.owner, s.channel)) = t.scales.keys := by
    rw [toList, Table.values, Table.keys, List.map_map]
    refine List.map_congr_left fun e he => ?_
    obtain ⟨⟨o, c⟩, s⟩ := e
    obtain ⟨rfl, rfl⟩ := h o c s (Table.get?_eq_some_iff.mpr he)
    rfl
  refine List.Nodup.of_map (fun s => (s.owner, s.channel)) ?_
  rw [hkeys]
  exact t.scales.distinct

/-- A view owns the scales of the table that say so. -/
theorem mem_ownedBy (h : t.Placed) : s ∈ t.ownedBy v ↔ s ∈ t.toList ∧ s.owner = v := by
  rw [ownedBy, List.mem_filterMap, mem_toList h]
  constructor
  · rintro ⟨c, _, hget⟩
    obtain ⟨rfl, rfl⟩ := h v c s hget
    exact ⟨hget, rfl⟩
  · rintro ⟨hget, rfl⟩
    exact ⟨s.channel, Channel.mem_all _, hget⟩

/-- A view lists its scales in the order of their channels. -/
theorem ownedBy_pairwise (h : t.Placed) (v : ViewId) :
    (t.ownedBy v).Pairwise fun s s' => s.channel.rank < s'.channel.rank := by
  refine List.pairwise_filterMap.mpr (Channel.all_pairwise.imp ?_)
  intro c d hlt s hs s' hs'
  rw [(h v c s hs).2, (h v d s' hs').2]
  exact hlt

theorem ownedBy_nodup (h : t.Placed) (v : ViewId) : (t.ownedBy v).Nodup := by
  refine (t.ownedBy_pairwise h v).imp fun hlt he => ?_
  rw [he] at hlt
  exact Nat.lt_irrefl _ hlt

/-- Going through all owners, each once, is going through the table. -/
theorem flatMap_ownedBy_perm (h : t.Placed) {views : List ViewId} (hviews : views.Nodup)
    (howners : ∀ s ∈ t.toList, s.owner ∈ views) : (views.flatMap t.ownedBy).Perm t.toList := by
  have hnodup : (views.flatMap t.ownedBy).Nodup := by
    refine List.nodup_flatMap.mpr ⟨fun v _ => t.ownedBy_nodup h v, hviews.imp ?_⟩
    -- a scale that two views own says so of both
    intro v v' hne s hs hs'
    exact hne (((mem_ownedBy h).mp hs).2.symm.trans ((mem_ownedBy h).mp hs').2)
  rw [List.perm_ext_iff_of_nodup hnodup (toList_nodup h)]
  intro s
  rw [List.mem_flatMap]
  constructor
  · rintro ⟨v, _, hs⟩
    exact ((mem_ownedBy h).mp hs).1
  · intro hs
    exact ⟨s.owner, howners s hs, (mem_ownedBy h).mpr ⟨hs, rfl⟩⟩

/-- A scale is owned by a view of the tree, and named after it. -/
theorem named_ofTree {tree : ViewTree} (hw : tree.WellFormed) (hl : tree.UnitsAreLeaves)
    {o : ViewId} {c : Channel} (hs : (ofTree tree).get? o c = some s) :
    ∃ n, tree.get? o = some n ∧ s.name = ScaleRequest.scaleName o n.name c := by
  obtain ⟨_, u, _, hu, _, rfl⟩ :=
    (get?_ofTree_isSome hw hl o c).mp (Option.isSome_of_eq_some hs)
  obtain ⟨m, hm, _⟩ := Option.bind_eq_some_iff.mp hu
  obtain ⟨n, hn⟩ := ViewTree.exists_get?_of_lt
    (Nat.lt_of_le_of_lt (ViewTree.scaleOwner_le hw c u) (ViewTree.lt_size_of_get? hm))
  refine ⟨n, hn, ?_⟩
  rw [get?_ofTree hw hl] at hs
  obtain ⟨r, _, rfl⟩ := List.mem_map.mp (List.mem_of_getLast? hs)
  rw [hn]
  rfl

end ScaleTable

/-! ## The artifact -/

/-- The compiled scale has the name, the type and the domain of the scale. -/
structure Scale.CompilesTo (s : Scale) (cs : CompiledScale) : Prop where
  name : cs.name = s.name
  type : cs.type = s.type
  domain : cs.domain = s.compiledDomain

namespace Compilation
variable {spec : ViewSpec} {c : Compilation} {a : Artifact}

/-- The table of a specification has every scale under its owner and channel, the owner is
a view of the tree, and the scale is named after it. -/
theorem scale_named (h : (ofSpec spec).result = .ok c) {o : ViewId} {ch : Channel} {s : Scale}
    (hs : c.scales.get? o ch = some s) :
    ∃ n, c.tree.get? o = some n ∧ s.name = ScaleRequest.scaleName o n.name ch := by
  obtain ⟨htree, hparse⟩ := ofSpec_steps h
  obtain ⟨hw, hl⟩ := ViewTree.ofSpec_wellFormed htree
  obtain ⟨parsed, _, hscales, _⟩ := parseSelections_ok hparse
  rw [hscales, ScaleTable.get?_bindAll (ScaleTable.placed_ofTree hw hl)] at hs
  obtain ⟨s₀, hs₀, rfl⟩ := Option.map_eq_some_iff.mp hs
  exact ScaleTable.named_ofTree (s := s₀) hw hl hs₀

/-- Scales of one name are one scale. -/
theorem eq_of_scale_name_eq (h : (ofSpec spec).result = .ok c) {s s' : Scale}
    (hs : s ∈ c.scales.toList) (hs' : s' ∈ c.scales.toList) (he : s.name = s'.name) : s = s' := by
  obtain ⟨htree, hparse⟩ := ofSpec_steps h
  have hplaced := placed_of_parse htree hparse
  have hget := (ScaleTable.mem_toList hplaced).mp hs
  have hget' := (ScaleTable.mem_toList hplaced).mp hs'
  obtain ⟨n, hn, hname⟩ := scale_named h hget
  obtain ⟨n', hn', hname'⟩ := scale_named h hget'
  have howner : n.name = n'.name → s.owner = s'.owner := by
    intro hnn
    have hfind := (ViewTree.find?_eq_some_iff (ViewTree.ofSpec_names_nodup htree)).mpr ⟨n, hn, hnn⟩
    have hfind' :=
      (ViewTree.find?_eq_some_iff (ViewTree.ofSpec_names_nodup htree)).mpr ⟨n', hn', rfl⟩
    exact Option.some.inj (hfind.symm.trans hfind')
  rw [hname, hname'] at he
  obtain ⟨ho, hch⟩ := ScaleRequest.scaleName_inj howner he
  rw [ho, hch, hget'] at hget
  exact (Option.some.inj hget).symm

theorem compilesTo_of_compile {s : Scale} {cs : CompiledScale}
    (h : (s.compile c.tree c.registry).result = .ok cs) : s.CompilesTo cs := by
  obtain ⟨raw, _, h⟩ := Diagnosed.bind_result_ok.mp h
  obtain rfl := Diagnosed.pure_result_ok.mp h
  exact ⟨rfl, rfl, rfl⟩

theorem name_compiledView {v : ViewId × ViewNode} {cv : CompiledView}
    (h : (c.compiledView v).result = .ok cv) : cv.name = v.2.name := by
  obtain ⟨_, _, h⟩ := Diagnosed.bind_result_ok.mp h
  cases hcontent : v.2.content
  all_goals
    rw [hcontent] at h
    obtain ⟨_, _, h⟩ := Diagnosed.bind_result_ok.mp h
    cases Diagnosed.pure_result_ok.mp h
    rfl

/-- View by view, the artifact has the scales that the view owns. -/
theorem forall₂_views (ha : c.artifact.result = .ok a) :
    List.Forall₂ (fun v cv => cv.name = v.2.name ∧
      List.Forall₂ Scale.CompilesTo (c.scales.ownedBy v.1) cv.scales) c.tree.preorder a.views := by
  refine (artifact_ok ha).2.imp fun v cv hcv => ⟨name_compiledView hcv, ?_⟩
  exact (Diagnosed.forEach_result_ok.mp (compiledView_ok hcv).1).imp
    fun s cs hcs => compilesTo_of_compile hcs

/-- Going through the artifact is going through what the views own. -/
theorem names_scales (ha : c.artifact.result = .ok a) :
    a.scales.map CompiledScale.name =
      (c.tree.preorder.flatMap fun v => c.scales.ownedBy v.1).map Scale.name := by
  have hscales : List.Forall₂ Scale.CompilesTo
      (c.tree.preorder.flatMap fun v => c.scales.ownedBy v.1) a.scales :=
    List.rel_flatMap (forall₂_views ha) fun v cv hcv => hcv.2
  have hnames : List.Forall₂ (· = ·) (a.scales.map CompiledScale.name)
      ((c.tree.preorder.flatMap fun v => c.scales.ownedBy v.1).map Scale.name) :=
    List.forall₂_map_left_iff.mpr (List.forall₂_map_right_iff.mpr
      (hscales.flip.imp fun cs s hcs => hcs.name))
  rwa [List.forall₂_eq_eq_eq] at hnames

theorem flatMap_preorder_perm (h : (ofSpec spec).result = .ok c) :
    (c.tree.preorder.flatMap fun v => c.scales.ownedBy v.1).Perm c.scales.toList := by
  obtain ⟨htree, hparse⟩ := ofSpec_steps h
  have hw := (ViewTree.ofSpec_wellFormed htree).1
  have hplaced := placed_of_parse htree hparse
  have hids : (c.tree.preorder.flatMap fun v => c.scales.ownedBy v.1) =
      (c.tree.preorder.map Prod.fst).flatMap c.scales.ownedBy := by
    rw [List.flatMap_map]
  rw [hids]
  refine ScaleTable.flatMap_ownedBy_perm hplaced (ViewTree.preorder_nodup hw) fun s hs => ?_
  obtain ⟨n, hn, _⟩ := scale_named h ((ScaleTable.mem_toList hplaced).mp hs)
  exact List.mem_map.mpr ⟨(s.owner, n), (ViewTree.mem_preorder hw).mpr hn, rfl⟩

theorem names_scales_nodup (h : (ofSpec spec).result = .ok c) (ha : c.artifact.result = .ok a) :
    (a.scales.map CompiledScale.name).Nodup := by
  have hplaced := placed_of_parse (ofSpec_steps h).1 (ofSpec_steps h).2
  have hperm := flatMap_preorder_perm h
  rw [names_scales ha]
  refine List.Nodup.map_on (fun s hs s' hs' he => ?_)
    (hperm.nodup_iff.mpr (ScaleTable.toList_nodup hplaced))
  exact eq_of_scale_name_eq h (hperm.mem_iff.mp hs) (hperm.mem_iff.mp hs') he

/-- The artifact of a specification lists the scales of its table. -/
structure ListsScales (c : Compilation) (a : Artifact) : Prop where
  /-- View by view, the compiled scales are made of those that the view owns. -/
  views : List.Forall₂ (fun v cv => cv.name = v.2.name ∧
    List.Forall₂ Scale.CompilesTo (c.scales.ownedBy v.1) cv.scales) c.tree.preorder a.views
  /-- A view owns the scales of the table that say so. -/
  owned : ∀ v s, s ∈ c.scales.ownedBy v ↔ s ∈ c.scales.toList ∧ s.owner = v
  /-- Over all views, the scales that are owned are those of the table, each once. -/
  once : (c.tree.preorder.flatMap fun v => c.scales.ownedBy v.1).Perm c.scales.toList
  /-- A view lists its scales in canonical order of channels. -/
  ordered : ∀ v, (c.scales.ownedBy v).Pairwise fun s s' => s.channel.rank < s'.channel.rank
  /-- The table knows a scale by its owner and its channel, and the scale is named after
  them. -/
  named : ∀ s ∈ c.scales.toList, c.scales.get? s.owner s.channel = some s ∧
    ∃ n, c.tree.get? s.owner = some n ∧ s.name = ScaleRequest.scaleName s.owner n.name s.channel
  /-- No two scales of the artifact have the same name. -/
  names_nodup : (a.scales.map CompiledScale.name).Nodup

theorem listsScales (h : (ofSpec spec).result = .ok c) (ha : c.artifact.result = .ok a) :
    c.ListsScales a := by
  have hplaced := placed_of_parse (ofSpec_steps h).1 (ofSpec_steps h).2
  constructor
  case views => exact forall₂_views ha
  case owned => exact fun v s => ScaleTable.mem_ownedBy hplaced
  case once => exact flatMap_preorder_perm h
  case ordered => exact fun v => c.scales.ownedBy_pairwise hplaced v
  case named =>
    intro s hs
    have hget := (ScaleTable.mem_toList hplaced).mp hs
    exact ⟨hget, scale_named h hget⟩
  case names_nodup => exact names_scales_nodup h ha

end Compilation

/-- **No scale is lost, doubled or misnamed.**  The artifact of a specification that
compiles lists the scales of its table, each once, at the view that owns it and in the order
of channels there, and no two of them under one name. -/
theorem compile_lists_scales {spec : ViewSpec} {a : Artifact}
    (h : (compile spec).result = .ok a) :
    ∃ c, (Compilation.ofSpec spec).result = .ok c ∧ c.artifact.result = .ok a ∧
      c.ListsScales a := by
  obtain ⟨c, hc, ha⟩ := compile_ok h
  exact ⟨c, hc, ha, Compilation.listsScales hc ha⟩

/-- Views whose names could be those of scales, one of them that of another view with a
channel. -/
def ViewSpec.namedLikeScales : ViewSpec :=
  .concatenated { (default : ViewHead) with resolve := Table.ofList [(.y, .shared)] }
    [.unit { (default : ViewHead) with
        name := "a"
        encoding := Table.ofList [(.y, .numeric "A"), (.x, .numeric "B")] } .point,
      .unit { (default : ViewHead) with
        name := "a_x"
        encoding := Table.ofList [(.y, .numeric "A"), (.x, .numeric "C")] } .point,
      .unit { (default : ViewHead) with
        name := ""
        encoding := Table.ofList [(.color, .numeric "A"), (.x, .numeric "D")] } .point]

theorem compile_lists_scales_namedLikeScales :
    ∃ a, (compile .namedLikeScales).result = .ok a ∧
      a.scales.map CompiledScale.name = ["y", "color", "a_x", "a_x_x", "_x"] ∧
      ∃ c, (Compilation.ofSpec .namedLikeScales).result = .ok c ∧ c.artifact.result = .ok a ∧
        c.ListsScales a :=
  ⟨_, rfl, by decide +kernel, @compile_lists_scales .namedLikeScales _ rfl⟩

end BrushLink
