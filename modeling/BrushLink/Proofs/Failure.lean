import BrushLink.Output
import BrushLink.Proofs.Scale.Listing
import BrushLink.Proofs.Selection.Lookup
import BrushLink.Session

/-! # What can go wrong

A compilation fails only on account of the specification.  Making the tree fails on its
views (`ViewTree.ofSpec_error`): every place at which a view is added is the root of a tree
without views, or beneath a view that was added before.  Making the components fails on its
selections (`parseSelections_error`).  Assembling the artifact does not fail at all
(`Compilation.exists_artifact`).

Whatever view the tree, the scales and the selections refer to is a view of the tree, and a
unit view where one is expected (`ViewTree.Grounded`, `Compilation.Grounded`).
-/
namespace BrushLink

namespace CompileError

/-- The views of the specification are at fault. -/
def faultsViews : CompileError → Bool
  | malformedView _ _ | duplicateView _ | unresolvedRepeat _ _ => true
  | conflictingSelection _ _ _ | emptyProjection _ _ | notAUnit _ | outsideTree _ => false

/-- The selections of the specification are at fault. -/
def faultsSelections : CompileError → Bool
  | conflictingSelection _ _ _ | emptyProjection _ _ => true
  | malformedView _ _ | duplicateView _ | unresolvedRepeat _ _ | notAUnit _ | outsideTree _ => false

end CompileError

/-! ## Making the tree -/

theorem Place.unitView_error {p : Place} {head : ViewHead} {mark : Mark} {e : CompileError}
    (h : p.unitView head mark = .error e) : e.faultsViews := by
  unfold unitView at h
  split at h
  · obtain rfl := Except.error.inj h
    rfl
  · cases h

namespace ViewTree
variable {t : ViewTree} {p : Place} {e : CompileError}

/-- A place at which a view can be added: the root if there are no views yet, else beneath
a view that may get a child. -/
structure Vacant (t : ViewTree) (p : Place) : Prop where
  root : p.parent = none → t.size = 0
  parent : ∀ q, p.parent = some q → t.TakesChild q

theorem TakesChild.vacant {v : ViewId} (h : t.TakesChild v) (hp : p.parent = some v) :
    t.Vacant p := by
  constructor
  · intro hnone
    rw [hp] at hnone
    cases hnone
  · intro q hq
    rwa [← Option.some.inj (hp.symm.trans hq)]

theorem Vacant.exists_addAt (h : t.Vacant p) (content : ViewContent) :
    ∃ t', t.addAt p content = .ok t' := by
  have haccepts : t.Accepts p.parent := by
    cases hp : p.parent with
    | none => exact h.root hp
    | some q =>
      obtain ⟨n, _, hn, _⟩ := (h.parent q hp).composite
      exact lt_size_of_get? hn
  exact ⟨_, CompileError.ofTree_eq_ok.mpr (add_eq_ok.mpr ⟨rfl, haccepts⟩)⟩

theorem checkName_error {name : String} (h : t.checkName name = .error e) : e.faultsViews := by
  unfold checkName at h
  split at h
  · obtain rfl := Except.error.inj h
    rfl
  · cases h

/-- Adding an inner view and going on fails on the name of the view or later. -/
theorem error_of_addAt {k : CompositeView} {rest : ViewTree → Except CompileError ViewTree}
    (hv : t.Vacant p)
    (h : (do t.checkName p.name; let t' ← t.addAt p (.composite k); rest t') = .error e) :
    e.faultsViews ∨ ∃ t', t'.TakesChild t.size ∧ rest t' = .error e := by
  rcases Except.bind_eq_error.mp h with h | ⟨_, hname, h⟩
  · exact Or.inl (checkName_error h)
  · obtain ⟨t', ht'⟩ := hv.exists_addAt (.composite k)
    rw [ht'] at h
    exact Or.inr ⟨t', takesChild_of_addAt hname hv.parent ht', h⟩

mutual

theorem expand_error (spec : ViewSpec) (t : ViewTree) (p : Place) (hv : t.Vacant p)
    (h : t.expand p spec = .error e) : e.faultsViews := by
  match spec with
  | .malformed _ _ =>
    rw [expand] at h
    rcases Except.bind_eq_error.mp h with h | ⟨_, _, h⟩
    · exact checkName_error h
    · obtain rfl := Except.error.inj h
      rfl
  | .unit _ _ =>
    rw [expand] at h
    rcases Except.bind_eq_error.mp h with h | ⟨_, _, h⟩
    · exact checkName_error h
    · rcases Except.bind_eq_error.mp h with h | ⟨u, _, h⟩
      · exact Place.unitView_error h
      · obtain ⟨t', ht'⟩ := hv.exists_addAt (.unit u)
        rw [ht'] at h
        cases h
  | .layered _ children | .concatenated _ children =>
    rw [expand] at h
    rcases error_of_addAt hv h with he | ⟨t', htakes, h⟩
    · exact he
    · exact expandAll_error children _ _ _ _ _ htakes h
  | .repeated _ axes template =>
    rw [expand] at h
    rcases error_of_addAt hv h with he | ⟨t', htakes, h⟩
    · exact he
    · -- an instance fails in the tree that the earlier ones left, ready for it
      obtain ⟨t₁, i, _, htakes₁, h⟩ := foldlM_error_induction (fun t₁ => t₁.TakesChild t.size)
        (fun t₁ t₂ i _ htakes₁ h₁ =>
          (expand_planted template _ _ _ (htakes₁.vacant rfl).parent h₁).takesChild rfl htakes₁)
        h htakes
      exact expand_error template _ _ (htakes₁.vacant rfl) h
  | .faceted _ template =>
    rw [expand] at h
    rcases error_of_addAt hv h with he | ⟨t', htakes, h⟩
    · exact he
    · exact expand_error template _ _ (htakes.vacant rfl) h

theorem expandAll_error (specs : List ViewSpec) (t : ViewTree) (parent : ViewId) (p : Place)
    (word : String) (index : Nat) (hparent : t.TakesChild parent)
    (h : t.expandAll parent p word index specs = .error e) : e.faultsViews := by
  match specs with
  | [] => cases h
  | c :: cs =>
    rw [expandAll] at h
    rcases Except.bind_eq_error.mp h with h | ⟨t₁, h₁, h⟩
    · exact expand_error c _ _ (hparent.vacant rfl) h
    · have hplanted := expand_planted c _ _ _ (hparent.vacant rfl).parent h₁
      exact expandAll_error cs _ _ _ _ _ (hplanted.takesChild rfl hparent) h

end

/-- Making the tree of a specification fails on its views only. -/
theorem ofSpec_error {spec : ViewSpec} (h : ofSpec spec = .error e) : e.faultsViews := by
  refine expand_error spec _ _ ⟨fun _ => rfl, ?_⟩ h
  intro q hq
  cases hq

/-! ## The views that a tree refers to -/

/-- Whatever view a tree and its scales refer to is a view of the tree. -/
structure Grounded (t : ViewTree) : Prop where
  root : root < t.size
  walk : ∀ v n, (v, n) ∈ t.preorder → t.node v = .ok n
  parents : ∀ v p, t.parent v = .ok (some p) → p < t.size
  children : ∀ v us, t.children v = .ok us → ∀ u ∈ us, u < t.size
  ancestors : ∀ v vs, t.ancestors v = .ok vs → ∀ a ∈ vs, a < t.size
  /-- A view of the tree owns each scale, which is named after it. -/
  owners : ∀ s ∈ (ScaleTable.ofTree t).toList, ∃ name, t.name s.owner = .ok name ∧
    s.name = ScaleRequest.scaleName s.owner name s.channel
  /-- A view that the walk takes for a unit view can be asked for what it declares. -/
  units : ∀ v view u, (v, view, u) ∈ t.units → t.declarationsAt v = .ok (declarationsOn v view u)

theorem ofSpec_grounded {spec : ViewSpec} (h : ofSpec spec = .ok t) : t.Grounded := by
  obtain ⟨hw, hl⟩ := ofSpec_wellFormed h
  constructor
  case root =>
    obtain ⟨n, hn, _⟩ := (ofSpec_planted h).top
    exact lt_size_of_get? hn
  case walk =>
    intro v n hv
    exact node_eq_ok.mpr ((mem_preorder hw).mp hv)
  case parents =>
    intro v p hp
    obtain ⟨n, hn, hp⟩ := map_node_eq_ok.mp hp
    exact Nat.lt_trans (hw.parent_lt hn hp) (lt_size_of_get? hn)
  case children =>
    intro v us hus u hu
    obtain ⟨_, rfl⟩ := children_eq_ok.mp hus
    obtain ⟨n, hn, _⟩ := mem_children.mp hu
    exact lt_size_of_get? hn
  case ancestors =>
    intro v vs hvs a ha
    obtain ⟨n, hn, rfl⟩ := map_node_eq_ok.mp hvs
    exact Nat.lt_of_le_of_lt ((Within.of_mem_climb ha).le hw) (lt_size_of_get? hn)
  case owners =>
    intro s hs
    have hget := (ScaleTable.mem_toList (ScaleTable.placed_ofTree hw hl)).mp hs
    obtain ⟨n, hn, hname⟩ := ScaleTable.named_ofTree hw hl hget
    exact ⟨n.name, name_of_get? hn, hname⟩
  case units =>
    intro v view u hu
    obtain ⟨n, hn, rfl, hcontent⟩ := exists_node_of_mem_units hu
    rw [declarationsAt, node_eq_ok.mpr hn]
    simp only [CompileError.ofTree, Except.mapError, bind, Except.bind, hcontent]
    rfl

end ViewTree

/-! ## Making the components -/

theorem Registry.collect_error {tree : ViewTree} {config : SelectionConfig} {e : CompileError}
    (h : collect tree config = .error e) : e.faultsSelections := by
  have hnot : ¬ Collectable tree config := by
    intro hc
    obtain ⟨r, hr, _⟩ := collect_of_collectable hc
    rw [hr] at h
    cases h
  obtain ⟨before, d, after, hsplit, hbefore, a, ha, had⟩ := exists_conflict hnot
  obtain ⟨first, _, herror⟩ := collect_of_conflict hsplit hbefore ha had
  rw [h] at herror
  obtain rfl := Except.error.inj herror
  rfl

namespace Declaration
variable {tree : ViewTree} {scales : ScaleTable} {d : Declaration} {e : CompileError}

theorem exists_sharesOuterScope (hw : tree.WellFormed) {v : ViewId} {n : ViewNode}
    (hv : tree.get? v = some n) : ∃ outer, sharesOuterScope tree v = .ok outer := by
  unfold sharesOuterScope
  rw [ViewTree.parent_of_get? hv]
  cases hp : n.parent with
  | none => exact ⟨true, rfl⟩
  | some p =>
    obtain ⟨m, hm⟩ := ViewTree.exists_parent hw hv hp
    simp only [bind, Except.bind, ViewTree.node_eq_ok.mpr hm]
    exact ⟨_, rfl⟩

/-- A declaration on a view of the tree fails only if it captures nothing. -/
theorem parse_error (hw : tree.WellFormed) {n : ViewNode} (hv : tree.get? d.unit = some n)
    (h : (d.parse tree scales).result = .error e) : e.faultsSelections := by
  obtain ⟨outer, houter⟩ := exists_sharesOuterScope hw hv
  unfold parse at h
  rw [ViewTree.ancestors_of_get? hv, houter] at h
  split at h
  · obtain rfl := Except.error.inj h
    rfl
  · cases h

end Declaration

theorem ParseProgress.failure_run {tree : ViewTree} {config : SelectionConfig}
    {scales : ScaleTable} {e : CompileError} (hw : tree.WellFormed) {ds : List Declaration}
    (hds : ∀ d ∈ ds, ∃ n, tree.get? d.unit = some n)
    (h : (run tree config scales ds).failure = some e) : e.faultsSelections := by
  induction ds with
  | nil => cases h
  | cons d ds ih =>
    rw [run] at h
    cases hstep : ((d.filled config).parse tree scales).result with
    | error e' =>
      rw [hstep] at h
      obtain rfl := Option.some.inj h
      obtain ⟨n, hn⟩ := hds d List.mem_cons_self
      exact Declaration.parse_error (d := d.filled config) hw hn hstep
    | ok k =>
      rw [hstep] at h
      exact ih (fun d' hd' => hds d' (List.mem_cons_of_mem _ hd')) h

/-- Making the components of a tree fails on its selections only. -/
theorem parseSelections_error {tree : ViewTree} {config : SelectionConfig} {scales : ScaleTable}
    {e : CompileError} (hw : tree.WellFormed)
    (h : (parseSelections tree config scales).result = .error e) : e.faultsSelections := by
  rcases Diagnosed.bind_result_error.mp h with h | ⟨r, _, h⟩
  · exact Registry.collect_error h
  · rcases Diagnosed.bind_result_error.mp h with h | ⟨_, _, h⟩
    · cases h
    · split at h
      · rename_i e' hfailure
        obtain rfl := Except.error.inj h
        refine ParseProgress.failure_run hw (fun d hd => ?_) hfailure
        obtain ⟨n, hn, _⟩ :=
          ViewTree.exists_node_of_mem_units (ViewTree.exists_unit_of_declaration hd).1
        exact ⟨n, hn⟩
      · cases h

/-! ## Assembling the artifact -/

namespace Compilation
variable {spec : ViewSpec} {c : Compilation}

/-- Whatever view the scales and the selections refer to is a view of the tree, and the
latter refer to unit views. -/
structure Grounded (c : Compilation) : Prop where
  owners : ∀ s ∈ c.scales.toList, s.owner < c.tree.size
  components : ∀ k ∈ c.registry.components, c.requireUnit k.unit = .ok ()
  entries : ∀ n e, c.registry.entry? n = some e → ∀ v ∈ e.declaredIn, c.requireUnit v = .ok ()

theorem requireUnit_of_mem_units {v : ViewId} {view : String} {u : UnitView}
    (h : (v, view, u) ∈ c.tree.units) : c.requireUnit v = .ok () := by
  obtain ⟨n, hn, _, hcontent⟩ := ViewTree.exists_node_of_mem_units h
  rw [requireUnit, hn]
  simp only [hcontent]
  rfl

theorem ofSpec_grounded (h : (ofSpec spec).result = .ok c) : c.Grounded := by
  obtain ⟨htree, hparse⟩ := ofSpec_steps h
  constructor
  case owners =>
    intro s hs
    have hget := (ScaleTable.mem_toList (placed_of_parse htree hparse)).mp hs
    obtain ⟨n, hn, _⟩ := scale_named h hget
    exact ViewTree.lt_size_of_get? hn
  case components =>
    intro k hk
    obtain ⟨view, u, hu, _⟩ := (declaredIn h hk).declared
    exact requireUnit_of_mem_units hu
  case entries =>
    intro n e he v hv
    obtain ⟨_, hids⟩ :=
      Registry.Completed.declaredIn_of_entry? (Registry.completed_of_parse hparse) he
    rw [hids] at hv
    obtain ⟨view, u, hu, _⟩ := ViewTree.mem_declaringIds.mp hv
    exact requireUnit_of_mem_units hu

/-- What drives a scale can be said at every view of the tree. -/
theorem exists_compile_scale (h : (ofSpec spec).result = .ok c) {s : Scale} {n : ViewNode}
    (hs : c.tree.get? s.owner = some n) :
    ∃ cs, (s.compile c.tree c.registry).result = .ok cs := by
  obtain ⟨htree, hparse⟩ := ofSpec_steps h
  have hw := (ViewTree.ofSpec_wellFormed htree).1
  have hdriver : ∃ raw, (s.driver c.tree c.registry).result = .ok raw := by
    unfold Scale.driver
    split
    · exact ⟨_, rfl⟩
    · rename_i d _ _
      obtain ⟨found, hfound⟩ : ∃ found, c.registry.lookup c.tree s.owner d.selection = .ok found :=
        ⟨_, (Registry.completed_of_parse hparse).lookup_eq hw hs d.selection⟩
      rw [SelectionDomain.resolve, hfound, ViewTree.name_of_get? hs]
      cases found with
      | none => exact ⟨_, rfl⟩
      | some k => exact ⟨_, rfl⟩
    · exact ⟨_, rfl⟩
  obtain ⟨raw, hraw⟩ := hdriver
  exact ⟨_, Diagnosed.bind_result_ok.mpr ⟨raw, hraw, rfl⟩⟩

theorem exists_scalesOf (h : (ofSpec spec).result = .ok c) (v : ViewId) :
    ∃ scales, (c.scalesOf v).result = .ok scales := by
  obtain ⟨htree, hparse⟩ := ofSpec_steps h
  have hplaced := placed_of_parse htree hparse
  refine Diagnosed.exists_forEach_result fun s hs => ?_
  obtain ⟨n, hn, _⟩ :=
    scale_named h ((ScaleTable.mem_toList hplaced).mp ((ScaleTable.mem_ownedBy hplaced).mp hs).1)
  exact exists_compile_scale h hn

theorem exists_signalsOf (c : Compilation) {v : ViewId} {n : ViewNode}
    (hv : c.tree.get? v = some n) : ∃ signals, c.signalsOf v = .ok signals := by
  unfold signalsOf unitSignals
  rw [ViewTree.name_of_get? hv, ViewTree.ancestors_of_get? hv]
  split
  · exact ⟨_, rfl⟩
  · exact ⟨_, rfl⟩

theorem exists_compiledView (h : (ofSpec spec).result = .ok c) {v : ViewId × ViewNode}
    (hv : c.tree.get? v.1 = some v.2) : ∃ cv, (c.compiledView v).result = .ok cv := by
  obtain ⟨scales, hscales⟩ := exists_scalesOf h v.1
  obtain ⟨signals, hsignals⟩ := c.exists_signalsOf hv
  unfold compiledView
  cases hcontent : v.2.content with
  | unit u =>
    exact ⟨_, Diagnosed.bind_result_ok.mpr ⟨scales, hscales, Diagnosed.bind_result_ok.mpr
      ⟨signals, CompileError.ofTree_eq_ok.mpr hsignals, rfl⟩⟩⟩
  | composite k =>
    exact ⟨_, Diagnosed.bind_result_ok.mpr ⟨scales, hscales, Diagnosed.bind_result_ok.mpr
      ⟨[], rfl, rfl⟩⟩⟩

/-- Assembling the artifact does not fail. -/
theorem exists_artifact (h : (ofSpec spec).result = .ok c) : ∃ a, c.artifact.result = .ok a := by
  have hviews : ∀ v ∈ c.tree.preorder, ∃ cv, (c.compiledView v).result = .ok cv :=
    fun v hv => exists_compiledView h (ViewTree.get?_of_mem_preorder hv)
  obtain ⟨views, hviews⟩ := Diagnosed.exists_forEach_result hviews
  exact ⟨_, Diagnosed.bind_result_ok.mpr ⟨views, hviews, rfl⟩⟩

end Compilation

/-- A compilation that fails does so before the artifact is assembled. -/
theorem compile_error {spec : ViewSpec} {e : CompileError} (h : (compile spec).result = .error e) :
    e.faultsViews ∨ e.faultsSelections := by
  rcases Diagnosed.bind_result_error.mp h with h | ⟨c, hc, h⟩
  · rcases Diagnosed.bind_result_error.mp h with h | ⟨tree, htree, h⟩
    · exact Or.inl (ViewTree.ofSpec_error h)
    · have hw := (ViewTree.ofSpec_wellFormed htree).1
      rcases Diagnosed.bind_result_error.mp h with h | ⟨_, _, h⟩
      · exact Or.inr (parseSelections_error hw h)
      · cases h
  · obtain ⟨a, ha⟩ := Compilation.exists_artifact hc
    rw [ha] at h
    cases h

/-- **A compilation fails only on account of the specification.**  There is an output, or
the views or the selections of the specification are at fault: the former if there is no
tree, the latter if there is one.  No view is asked for that is not in the tree, or that is
not a unit view where one is needed, and the artifact of what was worked out can be
assembled. -/
theorem compileSpec_total (spec : ViewSpec) :
    ((∃ o, compileSpec spec = .ok o) ∨
      ∃ e, compileSpec spec = .error (.compile e) ∧ (e.faultsViews ∨ e.faultsSelections)) ∧
    (∀ e, ViewTree.ofSpec spec = .error e → e.faultsViews) ∧
    (∀ tree, ViewTree.ofSpec spec = .ok tree → tree.Grounded ∧
      ∀ e, (parseSelections tree spec.head.config (ScaleTable.ofTree tree)).result = .error e →
        e.faultsSelections) ∧
    ∀ c, (Compilation.ofSpec spec).result = .ok c →
      c.Grounded ∧ ∃ a, c.artifact.result = .ok a := by
  refine ⟨?_, fun e h => ViewTree.ofSpec_error h, fun tree htree => ⟨ViewTree.ofSpec_grounded htree,
    fun e h => parseSelections_error (ViewTree.ofSpec_wellFormed htree).1 h⟩,
    fun c hc => ⟨Compilation.ofSpec_grounded hc, Compilation.exists_artifact hc⟩⟩
  cases hresult : (compile spec).result with
  | ok a =>
    refine Or.inl ⟨⟨a, (compile spec).warnings⟩, ?_⟩
    simp only [compileSpec, hresult]
  | error e =>
    refine Or.inr ⟨e, ?_, compile_error hresult⟩
    simp only [compileSpec, hresult]

/-- A name that two children have, beside a child that is not a view. -/
def ViewSpec.doubled : ViewSpec :=
  .layered default
    [.unit { (default : ViewHead) with name := "a" } .point,
      .unit { (default : ViewHead) with name := "a" } .point, .malformed default (.arrangements 0)]

theorem compileSpec_total_doubled :
    (ViewTree.ofSpec .doubled = .error (.duplicateView "a") ∧
      (CompileError.duplicateView "a").faultsViews = true) ∧
    (∃ tree, ViewTree.ofSpec .disagreeing = .ok tree ∧ tree.Grounded) ∧
    (CompileError.conflictingSelection "pick" "concat_0" "concat_2").faultsSelections = true ∧
    ∃ c, (Compilation.ofSpec .linkedViews).result = .ok c ∧ c.Grounded :=
  ⟨⟨rfl, (compileSpec_total .doubled).2.1 _ rfl⟩,
    ⟨_, rfl, ((compileSpec_total .disagreeing).2.2.1 _ rfl).1⟩,
    ((compileSpec_total .disagreeing).2.2.1 _ rfl).2 _ rfl,
    ⟨_, rfl, ((compileSpec_total .linkedViews).2.2.2 _ rfl).1⟩⟩

end BrushLink
