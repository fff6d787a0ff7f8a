import BrushLink.Proofs.Assembly
import BrushLink.Proofs.View.Walk

/-! # Trees of the same shape

Names and parents make the shape of a tree: where the walk goes, what lies above a view and
which view has a name does not depend on what the views are (`preorder_mapContent`,
`ancestors_mapContent`, `find?_mapContent`).

Of a unit view a compilation reads the mark, the encoding, whether it is on the diagonal of
a repetition, and the selections with their open settings filled; of an inner view which
scales the children share, and whether it is a layer.  Contents that agree in this
(`ViewContent.Alike`) can take each other's place: scales, components, warnings and signals
stay the same, and so does the artifact if the contents are of the same kind
(`parseSelections_mapContent`, `Compilation.artifact_mapContent`).
-/
namespace BrushLink

/-- The view with its content exchanged. -/
def ViewNode.mapContent (g : ViewContent → ViewContent) (n : ViewNode) : ViewNode :=
  { n with content := g n.content }

@[simp] theorem ViewNode.name_mapContent (g : ViewContent → ViewContent) (n : ViewNode) :
    (n.mapContent g).name = n.name := rfl

/-- Unit views that show the same and declare the same, each with its own defaults. -/
structure UnitView.Alike (config config' : SelectionConfig) (u u' : UnitView) : Prop where
  mark : u'.mark = u.mark
  encoding : u'.encoding = u.encoding
  isDiagonal : u'.isDiagonal = u.isDiagonal
  selections : List.Forall₂ (fun e e' => e'.1 = e.1 ∧ config'.apply e'.2 = config.apply e.2)
    u.selections.entries u'.selections.entries

/-- Contents between which a compilation does not distinguish. -/
inductive ViewContent.Alike (config config' : SelectionConfig) : ViewContent → ViewContent → Prop
  | unit {u u' : UnitView} (h : u.Alike config config' u') :
      Alike config config' (.unit u) (.unit u')
  | composite {k k' : CompositeView} (mode : ∀ c, k'.mode c = k.mode c)
      (layer : k'.kind = .layer ↔ k.kind = .layer) :
      Alike config config' (.composite k) (.composite k')

theorem ViewContent.Alike.any_layer {config config' : SelectionConfig}
    {content content' : ViewContent} (h : content.Alike config config' content') :
    content'.composite?.any (fun k => k.kind = .layer) =
      content.composite?.any fun k => k.kind = .layer := by
  cases h with
  | unit _ => rfl
  | composite _ layer => simp only [composite?, Option.any_some, layer]

namespace ViewTree
variable {t : ViewTree} {g : ViewContent → ViewContent}

/-- The tree with the contents of its views exchanged. -/
def mapContent (g : ViewContent → ViewContent) (t : ViewTree) : ViewTree :=
  ⟨t.nodes.map (ViewNode.mapContent g)⟩

/-! ## The shape -/

@[simp] theorem size_mapContent : (t.mapContent g).size = t.size := List.length_map _

@[simp] theorem get?_mapContent (v : ViewId) :
    (t.mapContent g).get? v = (t.get? v).map (ViewNode.mapContent g) :=
  List.getElem?_map

theorem node_mapContent (v : ViewId) :
    (t.mapContent g).node v = (t.node v).map (ViewNode.mapContent g) := by
  rw [node, node, get?_mapContent]
  cases t.get? v <;> rfl

/-- A question that does not touch the content of a view. -/
theorem map_node_mapContent {α : Type} {f : ViewNode → α}
    (hf : ∀ n : ViewNode, f (n.mapContent g) = f n) (v : ViewId) :
    ((t.mapContent g).node v).map f = (t.node v).map f := by
  rw [node_mapContent]
  cases t.node v with
  | error e => rfl
  | ok n => exact congrArg Except.ok (hf n)

@[simp] theorem name_mapContent (v : ViewId) : (t.mapContent g).name v = t.name v :=
  map_node_mapContent (fun _ => rfl) v

@[simp] theorem parent_mapContent (v : ViewId) : (t.mapContent g).parent v = t.parent v :=
  map_node_mapContent (fun _ => rfl) v

@[simp] theorem climb_mapContent (steps : Nat) (v : ViewId) :
    (t.mapContent g).climb steps v = t.climb steps v := by
  induction steps generalizing v with
  | zero => rfl
  | succ steps ih =>
    have hparent : ((t.mapContent g).get? v).bind ViewNode.parent =
        (t.get? v).bind ViewNode.parent := by
      rw [get?_mapContent, Option.bind_map]
      rfl
    rw [climb, climb, hparent]
    split
    · rw [ih]
    · rfl

@[simp] theorem ancestors_mapContent (v : ViewId) :
    (t.mapContent g).ancestors v = t.ancestors v := by
  rw [ancestors, ancestors, size_mapContent]
  simp only [climb_mapContent]
  exact map_node_mapContent (fun _ => rfl) v

@[simp] theorem find?_mapContent (name : String) : (t.mapContent g).find? name = t.find? name := by
  rw [find?, mapContent, List.findIdx?_map]
  rfl

@[simp] theorem checkName_mapContent (name : String) :
    (t.mapContent g).checkName name = t.checkName name := by
  rw [checkName, checkName, find?_mapContent]

theorem addAt_mapContent (p : Place) (content : ViewContent) :
    (t.mapContent g).addAt p (g content) = mapContent g <$> t.addAt p content := by
  unfold addAt add
  rw [size_mapContent]
  cases p.parent with
  | none =>
    by_cases h : t.size = 0
    · simp only [if_pos h]
      rfl
    · simp only [if_neg h]
      rfl
  | some q =>
    by_cases h : q < t.size
    · simp only [if_pos h, mapContent, CompileError.ofTree, Except.mapError, Except.map_ok,
        List.map_append]
      rfl
    · simp only [if_neg h]
      rfl

/-- Adding a view goes along with exchanging contents, if what follows does. -/
theorem addAt_bind_mapContent {p : Place} {c : ViewContent}
    {rest rest' : ViewTree → Except CompileError ViewTree}
    (h : ∀ t', rest' (t'.mapContent g) = mapContent g <$> rest t') :
    (do (t.mapContent g).checkName p.name
        let t' ← (t.mapContent g).addAt p (g c)
        rest' t') =
      mapContent g <$> (do t.checkName p.name; let t' ← t.addAt p c; rest t') := by
  rw [checkName_mapContent, addAt_mapContent, map_bind]
  refine bind_congr fun _ => ?_
  rw [bind_map_left, map_bind]
  exact bind_congr h

theorem childNodes_mapContent (v : ViewId) :
    (t.mapContent g).childNodes v = (t.childNodes v).map fun c => (c.1, c.2.mapContent g) := by
  have hindexed : (t.mapContent g).nodes.mapIdx (fun i n => (i, n)) =
      (t.nodes.mapIdx fun i n => (i, n)).map fun c => (c.1, c.2.mapContent g) :=
    List.ext_getElem (by simp [mapContent]) (by intros; simp [mapContent])
  rw [childNodes, childNodes, hindexed, List.filter_map]
  rfl

theorem flatten_branch_mapContent (levels : Nat) (v : ViewId) (n : ViewNode) :
    ((t.mapContent g).branch levels v (n.mapContent g)).flatten =
      (t.branch levels v n).flatten.map fun w => (w.1, w.2.mapContent g) := by
  induction levels generalizing v n with
  | zero => simp only [branch, Branch.flatten_mk, List.flatMap_nil, List.map_singleton]
  | succ levels ih =>
    rw [branch, branch, Branch.flatten_mk, Branch.flatten_mk, childNodes_mapContent,
      List.map_cons, List.map_flatMap, List.flatMap_map, List.flatMap_map, List.flatMap_map]
    simp only [ih]

theorem preorder_mapContent :
    (t.mapContent g).preorder = t.preorder.map fun v => (v.1, v.2.mapContent g) := by
  unfold preorder trunk?
  rw [size_mapContent, mapContent, List.head?_map]
  cases t.nodes.head? with
  | none => rfl
  | some n => exact flatten_branch_mapContent t.size root n

end ViewTree

/-! ## Alike views -/

namespace UnitView
variable {u u' : UnitView}

theorem field?_congr (h : u'.encoding = u.encoding) : u'.field? = u.field? := by
  funext c
  rw [field?, field?, h]

theorem project_congr (h : u'.encoding = u.encoding) : u'.project = u.project := by
  funext s
  simp only [project, captured, fields, field?_congr h, h]

theorem missingChannels_congr (h : u'.encoding = u.encoding) :
    u'.missingChannels = u.missingChannels := by
  funext s
  simp only [missingChannels, field?_congr h]

theorem Alike.scaleRequests_eq {config config' : SelectionConfig} (h : u.Alike config config' u') :
    u'.scaleRequests = u.scaleRequests := by
  rw [scaleRequests, scaleRequests, h.mark, h.encoding]

end UnitView

namespace ScaleHarvest

theorem take_congr {k k' : CompositeView} (hmode : ∀ c, k'.mode c = k.mode c) :
    take k' = take k := by
  have habsorb : absorb k' = absorb k := by
    funext child name h r
    rw [absorb, absorb, hmode]
  funext h child name offer
  rw [take, take, habsorb]

theorem ofChildren_congr {k k' : CompositeView} (hmode : ∀ c, k'.mode c = k.mode c)
    {bs bs' : List Branch} (h : List.Forall₂ (fun b b' =>
      b'.id = b.id ∧ b'.node.name = b.node.name ∧ ofBranch b' = ofBranch b) bs bs')
    (harvest : ScaleHarvest) : ofChildren k' harvest bs' = ofChildren k harvest bs := by
  induction h generalizing harvest with
  | nil => rfl
  | cons hb _ ih =>
    obtain ⟨hid, hname, hbranch⟩ := hb
    rw [ofChildren, ofChildren, hid, hname, hbranch, take_congr hmode, ih]

theorem ofBranch_congr {config config' : SelectionConfig} {v : ViewId}
    {n n' : ViewNode} (h : n.content.Alike config config' n'.content) {bs bs' : List Branch}
    (hbs : List.Forall₂ (fun b b' =>
      b'.id = b.id ∧ b'.node.name = b.node.name ∧ ofBranch b' = ofBranch b) bs bs') :
    ofBranch (.mk v n' bs') = ofBranch (.mk v n bs) := by
  rw [ofBranch, ofBranch]
  generalize n.content = content at h
  generalize n'.content = content' at h
  cases h with
  | unit h => simp only [h.scaleRequests_eq]
  | composite mode _ => exact ofChildren_congr mode hbs _

end ScaleHarvest

/-- Declarations of which the same component is made. -/
structure Declaration.Alike (d d' : Declaration) : Prop where
  unit : d'.unit = d.unit
  view : d'.view = d.view
  name : d'.name = d.name
  selection : d'.selection = d.selection
  encoding : d'.content.encoding = d.content.encoding
  isDiagonal : d'.content.isDiagonal = d.content.isDiagonal

/-! ## Exchanging contents for others alike -/

section Exchange
variable {t : ViewTree} {g : ViewContent → ViewContent} {config config' : SelectionConfig}

theorem Registry.lookup_mapContent (r : Registry) (v : ViewId) (n : String) :
    r.lookup (t.mapContent g) v n = r.lookup t v n := by
  simp only [lookup, ViewTree.ancestors_mapContent]

theorem Registry.declare_mapContent (r : Registry) {d d' : Declaration} (h : d.Alike d') :
    declare (t.mapContent g) r d' = declare t r d := by
  have hentry : SelectionEntry.ofDeclaration d' = SelectionEntry.ofDeclaration d := by
    simp only [SelectionEntry.ofDeclaration, Declaration.resolve, h.unit, h.name, h.selection]
  simp only [declare, hentry, h.name, h.view, h.unit, ViewTree.name_mapContent]

variable (hg : ∀ {v n}, t.get? v = some n → n.content.Alike config config' (g n.content))
include hg

theorem ScaleHarvest.ofBranch_mapContent (levels : Nat) {v : ViewId} {n : ViewNode}
    (hv : t.get? v = some n) :
    ofBranch ((t.mapContent g).branch levels v (n.mapContent g)) =
      ofBranch (t.branch levels v n) := by
  induction levels generalizing v n with
  | zero => exact ofBranch_congr (hg hv) .nil
  | succ levels ih =>
    rw [ViewTree.branch, ViewTree.branch, ViewTree.childNodes_mapContent, List.map_map]
    refine ofBranch_congr (hg hv) ?_
    rw [List.forall₂_map_left_iff, List.forall₂_map_right_iff, List.forall₂_same]
    intro c hc
    simp only [Function.comp, ViewTree.branch_id, ViewTree.branch_node, true_and]
    exact ⟨rfl, ih (ViewTree.mem_childNodes.mp hc).1⟩

theorem ScaleTable.ofTree_mapContent : ofTree (t.mapContent g) = ofTree t := by
  have hhead : (t.mapContent g).nodes.head? = t.nodes.head?.map (ViewNode.mapContent g) :=
    List.head?_map
  unfold ofTree ViewTree.trunk?
  rw [ViewTree.size_mapContent, hhead]
  cases hroot : t.nodes.head? with
  | none => rfl
  | some n =>
    have hget : t.get? ViewTree.root = some n := by
      rwa [List.head?_eq_getElem?] at hroot
    simp only [Option.map_some, ViewTree.branch_id, ViewTree.branch_node,
      ScaleHarvest.ofBranch_mapContent hg t.size hget, ViewNode.name_mapContent]

theorem ViewTree.units_mapContent :
    List.Forall₂ (fun w w' => w'.1 = w.1 ∧ w'.2.1 = w.2.1 ∧ w.2.2.Alike config config' w'.2.2)
      t.units (t.mapContent g).units := by
  have hwalk : List.Forall₂ (fun v v' => v = v' ∧ t.get? v.1 = some v.2) t.preorder t.preorder :=
    List.forall₂_same.mpr fun v hv => ⟨rfl, get?_of_mem_preorder hv⟩
  rw [units, units, preorder_mapContent, List.filterMap_map]
  refine List.rel_filterMap ?_ hwalk
  rintro ⟨v, n⟩ _ ⟨rfl, hv⟩
  have halike := hg hv
  simp only [Function.comp, ViewNode.mapContent]
  generalize g n.content = content' at halike
  generalize n.content = content at halike
  cases halike with
  | unit h => exact .some ⟨rfl, rfl, h⟩
  | composite _ _ => exact .none

theorem ViewTree.unit?_bind_mapContent {α : Type} {f : UnitView → Option α}
    (hf : ∀ u u', u.Alike config config' u' → f u' = f u) (v : ViewId) :
    ((t.mapContent g).unit? v).bind f = (t.unit? v).bind f := by
  rw [unit?, unit?, get?_mapContent]
  cases hv : t.get? v with
  | none => rfl
  | some n =>
    have halike := hg hv
    simp only [Option.map_some, Option.bind_some, ViewNode.mapContent]
    generalize g n.content = content' at halike
    generalize n.content = content at halike
    cases halike with
    | unit h => exact hf _ _ h
    | composite _ _ => rfl

theorem ViewTree.declarations_mapContent :
    List.Forall₂ (fun d d' => (d.filled config).Alike (d'.filled config'))
      t.declarations (t.mapContent g).declarations := by
  refine List.rel_flatMap (units_mapContent hg) ?_
  rintro ⟨v, view, u⟩ ⟨_, _, u'⟩ ⟨rfl, rfl, hu⟩
  refine List.forall₂_map_left_iff.mpr (List.forall₂_map_right_iff.mpr ?_)
  exact hu.selections.imp fun e e' he => ⟨rfl, rfl, he.1, he.2, hu.encoding, hu.isDiagonal⟩

theorem Declaration.sharesOuterScope_mapContent (v : ViewId) :
    sharesOuterScope (t.mapContent g) v = sharesOuterScope t v := by
  unfold sharesOuterScope
  rw [ViewTree.parent_mapContent]
  refine bind_congr fun p => ?_
  cases p with
  | none => rfl
  | some p =>
    simp only [ViewTree.node_mapContent]
    cases hp : t.node p with
    | error e => rfl
    | ok m =>
      exact congrArg (fun layer => Except.ok (m.parent.isNone && layer))
        (hg (ViewTree.node_eq_ok.mp hp)).any_layer

theorem Declaration.parse_mapContent (scales : ScaleTable) {d d' : Declaration} (h : d.Alike d') :
    d'.parse (t.mapContent g) scales = d.parse t scales := by
  have hkept : d'.kept = d.kept := by
    simp only [kept, UnitView.project_congr h.encoding, h.selection]
  have hdropped : d'.dropped = d.dropped := by
    simp only [dropped, UnitView.project_congr h.encoding, h.selection]
  have hwarning : d'.warning = d.warning := by
    funext cause
    rw [warning, warning, h.view, h.name]
  have hcapture : d'.captureWarnings = d.captureWarnings := by
    simp only [captureWarnings, UnitView.missingChannels_congr h.encoding, h.selection, hwarning,
      hdropped]
  have hglobal : d'.isGlobalInterval = d.isGlobalInterval := by
    rw [isGlobalInterval, isGlobalInterval, resolve, resolve, h.selection]
  have htargets : d'.targets = d.targets := by
    simp only [targets, h.selection, hglobal, h.isDiagonal, hkept]
  simp only [parse, component, bindings, bindingWarnings, driven, resolve, hkept, hcapture, hglobal,
    htargets, hwarning, h.unit, h.view, h.name, h.selection, ViewTree.ancestors_mapContent,
    sharesOuterScope_mapContent hg]

theorem Registry.collect_mapContent : collect (t.mapContent g) config' = collect t config := by
  refine foldlM_congr_forall₂ (R := Declaration.Alike) ?_
    (fun r d d' h => declare_mapContent r h) empty
  rw [List.forall₂_map_left_iff, List.forall₂_map_right_iff]
  exact ViewTree.declarations_mapContent hg

theorem ParseProgress.run_mapContent (scales : ScaleTable) {ds ds' : List Declaration}
    (h : List.Forall₂ (fun d d' => (d.filled config).Alike (d'.filled config')) ds ds') :
    run (t.mapContent g) config' scales ds' = run t config scales ds := by
  induction h with
  | nil => rfl
  | cons hd _ ih => simp only [run, Declaration.parse_mapContent hg scales hd, ih]

/-- The same components are made, and the same scales are driven. -/
theorem parseSelections_mapContent (scales : ScaleTable) :
    parseSelections (t.mapContent g) config' scales = parseSelections t config scales := by
  simp only [parseSelections, Registry.collect_mapContent hg,
    ParseProgress.run_mapContent hg scales (ViewTree.declarations_mapContent hg)]

theorem SelectionDomain.resolve_mapContent (registry : Registry) (v : ViewId)
    (d : SelectionDomain) :
    d.resolve (t.mapContent g) registry v = d.resolve t registry v := by
  have hfield : d.field? (t.mapContent g) = d.field? t := by
    funext k
    unfold SelectionDomain.field?
    split
    · rfl
    · rw [ViewTree.unit?_bind_mapContent hg fun u u' h => by rw [UnitView.field?_congr h.encoding]]
    · rfl
  simp only [resolve, Registry.lookup_mapContent, ViewTree.name_mapContent, hfield]

theorem Scale.compile_mapContent (registry : Registry) (s : Scale) :
    s.compile (t.mapContent g) registry = s.compile t registry := by
  simp only [compile, driver, SelectionDomain.resolve_mapContent hg]

end Exchange

namespace Compilation
variable {c : Compilation} {g : ViewContent → ViewContent} {config config' : SelectionConfig}

/-- The compilation with the contents of its views exchanged. -/
def mapContent (g : ViewContent → ViewContent) (c : Compilation) : Compilation :=
  { c with tree := c.tree.mapContent g }

theorem ofTree_eq_map (t : ViewTree) (config : SelectionConfig) :
    ofTree t config =
      (fun p => ⟨t, p.1, p.2⟩) <$> parseSelections t config (ScaleTable.ofTree t) := by
  rw [ofTree, map_eq_pure_bind]

/-- The scales and signals of a view. -/
def partsOf (c : Compilation) (v : ViewId × ViewNode) :
    Diagnosed (List CompiledScale × List Signal) := do
  let scales ← c.scalesOf v.1
  let signals ← match v.2.content with
    | .unit _ => Diagnosed.ofExcept (CompileError.ofTree (c.signalsOf v.1))
    | .composite _ => pure []
  pure (scales, signals)

theorem compiledView_eq_map (c : Compilation) (v : ViewId × ViewNode) :
    c.compiledView v =
      (fun parts => ⟨v.2.name, v.2.content.kindName, parts.1, parts.2⟩) <$> c.partsOf v := by
  obtain ⟨id, name, parent, content⟩ := v
  rw [compiledView, partsOf, map_bind]
  refine bind_congr fun scales => ?_
  cases content with
  | unit u => simp only [map_bind, map_pure]
  | composite k => rfl

theorem signalsOf_mapContent (v : ViewId) : (c.mapContent g).signalsOf v = c.signalsOf v := by
  simp only [signalsOf, unitSignals, mapContent, ViewTree.name_mapContent,
    ViewTree.ancestors_mapContent]

variable (hg : ∀ {v n}, c.tree.get? v = some n → n.content.Alike config config' (g n.content))
include hg

theorem scalesOf_mapContent (v : ViewId) : (c.mapContent g).scalesOf v = c.scalesOf v := by
  have hcompile : Scale.compile (c.tree.mapContent g) c.registry =
      Scale.compile c.tree c.registry :=
    funext fun s => Scale.compile_mapContent hg c.registry s
  simp only [scalesOf, mapContent, hcompile]

theorem topLevel_mapContent : (c.mapContent g).topLevel = c.topLevel := by
  have hunits : List.Forall₂ (· = ·)
      ((c.tree.mapContent g).units.map fun u => c.registry.componentsOf u.1)
      (c.tree.units.map fun u => c.registry.componentsOf u.1) :=
    List.forall₂_map_left_iff.mpr (List.forall₂_map_right_iff.mpr
      ((ViewTree.units_mapContent hg).flip.imp fun u' u hu => congrArg _ hu.1))
  rw [List.forall₂_eq_eq_eq] at hunits
  rw [topLevel_eq, topLevel_eq, ← hunits]
  rfl

theorem partsOf_mapContent {v : ViewId × ViewNode} (hv : v ∈ c.tree.preorder) :
    (c.mapContent g).partsOf (v.1, v.2.mapContent g) = c.partsOf v := by
  have halike := hg (ViewTree.get?_of_mem_preorder hv)
  simp only [partsOf, scalesOf_mapContent hg, signalsOf_mapContent, ViewNode.mapContent]
  generalize g v.2.content = content' at halike
  generalize v.2.content = content at halike
  cases halike with
  | unit _ => rfl
  | composite _ _ => rfl

/-- The same artifact is assembled, if the kinds of views are the same. -/
theorem artifact_mapContent (hkind : ∀ content, (g content).kindName = content.kindName) :
    (c.mapContent g).artifact = c.artifact := by
  have hview : ∀ v ∈ c.tree.preorder,
      (c.mapContent g).compiledView (v.1, v.2.mapContent g) = c.compiledView v := by
    intro v hv
    rw [compiledView_eq_map, compiledView_eq_map, partsOf_mapContent hg hv,
      ViewNode.name_mapContent, ViewNode.mapContent, hkind]
  have hwalk : (c.mapContent g).tree.preorder =
      c.tree.preorder.map fun v => (v.1, v.2.mapContent g) := ViewTree.preorder_mapContent
  rw [artifact, artifact, topLevel_mapContent hg, hwalk, Diagnosed.forEach_map_congr hview]

end Compilation

section Specifications
variable {spec spec' : ViewSpec} {g : ViewContent → ViewContent}
  (htree : ViewTree.ofSpec spec' = ViewTree.mapContent g <$> ViewTree.ofSpec spec)
  (hg : ∀ t, ViewTree.ofSpec spec = .ok t → ∀ {v n}, t.get? v = some n →
    n.content.Alike spec.head.config spec'.head.config (g n.content))
include htree hg

/-- Specifications whose trees have the same shape and contents alike are worked out alike. -/
theorem Compilation.ofSpec_mapContent : ofSpec spec' = mapContent g <$> ofSpec spec := by
  rw [ofSpec, ofSpec, htree]
  cases ht : ViewTree.ofSpec spec with
  | error e =>
    simp only [Except.map_error, Diagnosed.ofExcept_error_bind, Diagnosed.map_ofExcept_error]
  | ok t =>
    simp only [Except.map_ok, Diagnosed.ofExcept_ok_bind, ofTree_eq_map, Functor.map_map,
      ScaleTable.ofTree_mapContent (hg t ht), parseSelections_mapContent (hg t ht)]
    rfl

/-- They compile to the same, if the kinds of views are the same. -/
theorem compile_eq_of_mapContent (hkind : ∀ content, (g content).kindName = content.kindName) :
    compile spec' = compile spec := by
  rw [compile, compile, Compilation.ofSpec_mapContent htree hg, bind_map_left]
  refine Diagnosed.bind_congr_of_result fun c hc => ?_
  exact Compilation.artifact_mapContent (hg c.tree (Compilation.ofSpec_steps hc).1) hkind

end Specifications

end BrushLink
