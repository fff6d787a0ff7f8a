import BrushLink.Proofs.Selection.Defaults

/-! # Repetition written out

A repeated template saves writing: it stands for its instances side by side, each with the
fields filled in for which the template is repeated.  A concatenation can do without, if it
lists the instances (`ViewSpec.spread`), row by row, and calls them what the repetition would
call them.  Both have trees of the same shape.  They differ in the kind of the root, and in
unit views of a repetition knowing the fields that they stand for, which a compilation only
asks about on a diagonal (`ViewContent.alike_unrepeated`).  Where no field stands in both a
row and a column there is no diagonal, so both compile to the same (`compile_spread`).

References to the repeated field along an axis without a list are left as they are, and
reported in both.
-/
namespace BrushLink

/-! ## Instances -/

namespace RepeatAxes

/-- The fields along an axis, if it has a list of them. -/
def fields? : RepeatAxes → Axis → Option (List String)
  | rows rs, .row => some rs
  | rows _, .column => none
  | columns _, .row => none
  | columns cs, .column => some cs
  | grid rs _, .row => some rs
  | grid _ cs, .column => some cs

/-- The fields along an axis. -/
def fields (axes : RepeatAxes) (axis : Axis) : List String := (axes.fields? axis).getD []

/-- The stops along an axis: each field with its index, or a single stop without a field
where nothing is repeated. -/
def stops (axes : RepeatAxes) (axis : Axis) : List (Option (String × Nat)) :=
  match axes.fields? axis with
  | some fs => fs.zipIdx.map some
  | none => [none]

/-- What a stop adds to the name of an instance. -/
def suffix (axis : Axis) : Option (String × Nat) → String
  | some (_, i) => "_" ++ axis.name ++ "_" ++ i.repr
  | none => ""

/-- The instance at a stop of the rows and one of the columns. -/
def instanceAt (r c : Option (String × Nat)) : RepeatInstance :=
  ⟨"repeat" ++ suffix .row r ++ suffix .column c, ⟨r.map Prod.fst, c.map Prod.fst⟩⟩

theorem repeat_suffix (axis : Axis) (stop : String × Nat) :
    "repeat" ++ suffix axis (some stop) = "repeat_" ++ axis.name ++ "_" ++ stop.2.repr := by
  have h : "repeat_" = "repeat" ++ "_" := rfl
  simp only [suffix, h, String.append_assoc]

/-- Rows are gone through outside, columns inside. -/
theorem instances_eq (axes : RepeatAxes) :
    axes.instances =
      (axes.stops .row).flatMap fun r => (axes.stops .column).map (instanceAt r) := by
  cases axes with
  | rows rs =>
    have hat : ∀ r, instanceAt (some r) none = ⟨"repeat_row_" ++ r.2.repr, ⟨some r.1, none⟩⟩ := by
      intro r
      rw [instanceAt, repeat_suffix]
      exact congrArg (RepeatInstance.mk · _) String.append_empty
    simp only [instances, stops, fields?, List.mapIdx_eq_zipIdx_map, List.flatMap_map,
      List.map_singleton, hat]
    exact List.map_eq_flatMap
  | columns cs =>
    have hat : ∀ c, instanceAt none (some c) =
        ⟨"repeat_column_" ++ c.2.repr, ⟨none, some c.1⟩⟩ := by
      intro c
      exact congrArg (RepeatInstance.mk · _) (repeat_suffix .column c)
    simp only [instances, stops, fields?, List.mapIdx_eq_zipIdx_map, List.flatMap_singleton,
      List.map_map, Function.comp_def, hat]
  | grid rs cs =>
    have hat : ∀ r c, instanceAt (some r) (some c) =
        ⟨"repeat_row_" ++ r.2.repr ++ "_column_" ++ c.2.repr, ⟨some r.1, some c.1⟩⟩ := by
      intro r c
      rw [instanceAt, repeat_suffix, suffix, ← String.append_assoc]
      rfl
    simp only [instances, stops, fields?, List.mapIdx_eq_zipIdx_map, List.flatMap_def,
      List.map_map, Function.comp_def, hat]

/-- The fields of an instance are among those of its axes. -/
theorem mem_fields_of_mem_stops {axes : RepeatAxes} {axis : Axis} {stop : Option (String × Nat)}
    {f : String} (h : stop ∈ axes.stops axis) (hf : stop.map Prod.fst = some f) :
    f ∈ axes.fields axis := by
  rw [fields]
  rw [stops] at h
  cases hfs : axes.fields? axis with
  | none =>
    rw [hfs] at h
    obtain rfl := List.mem_singleton.mp h
    cases hf
  | some fs =>
    rw [hfs] at h
    obtain ⟨⟨g, i⟩, hg, rfl⟩ := List.mem_map.mp h
    obtain rfl := Option.some.inj hf
    exact List.fst_mem_of_mem_zipIdx hg

/-- Where rows and columns have no field in common, nothing is on the diagonal. -/
theorem not_isDiagonal {axes : RepeatAxes} (h : (axes.fields .row).Disjoint (axes.fields .column))
    {i : RepeatInstance} (hi : i ∈ axes.instances) : i.repeater.isDiagonal = false := by
  rw [instances_eq, List.mem_flatMap] at hi
  obtain ⟨r, hr, hi⟩ := hi
  obtain ⟨c, hc, rfl⟩ := List.mem_map.mp hi
  rw [Repeater.isDiagonal, Bool.and_eq_false_iff, decide_eq_false_iff_not]
  cases hrow : r.map Prod.fst with
  | none => exact Or.inl (by rw [instanceAt, hrow]; rfl)
  | some f =>
    refine Or.inr fun he => ?_
    exact h (mem_fields_of_mem_stops hr hrow) (mem_fields_of_mem_stops hc (he.symm.trans hrow))

end RepeatAxes

/-! ## Specifications -/

/-- The field that a reference stands for on an instance; the reference itself, if the
instance has no field along that axis. -/
def FieldSource.settled (r : Repeater) : FieldSource → FieldSource
  | .named f => .named f
  | .repeated axis =>
    match r.value axis with
    | some f => .named ⟨f⟩
    | none => .repeated axis

/-- The entry of an encoding with its reference settled. -/
def ChannelSpec.settled (r : Repeater) : ChannelSpec → ChannelSpec
  | .list => .list
  | .single d => .single { d with field := d.field.map (FieldSource.settled r) }

/-- The head with the references of its encoding settled. -/
def ViewHead.settled (r : Repeater) (head : ViewHead) : ViewHead :=
  { head with encoding := head.encoding.filterMap fun _ c => some (c.settled r) }

namespace ViewSpec

mutual

/-- The specification with all references settled for an instance.  Those within a further
repetition are not to the fields of this one. -/
def settled (r : Repeater) : ViewSpec → ViewSpec
  | .unit head mark => .unit (head.settled r) mark
  | .layered head children => .layered (head.settled r) (settledAll r children)
  | .concatenated head children => .concatenated (head.settled r) (settledAll r children)
  | .repeated head axes template => .repeated (head.settled r) axes template
  | .faceted head template => .faceted (head.settled r) (settled r template)
  | .malformed head fault => .malformed (head.settled r) fault

/-- Several specifications with all references settled. -/
def settledAll (r : Repeater) : List ViewSpec → List ViewSpec
  | [] => []
  | spec :: specs => settled r spec :: settledAll r specs

end

mutual

/-- Whether nothing is repeated. -/
def repeatFree : ViewSpec → Bool
  | .unit _ _ => true
  | .layered _ children => repeatFreeAll children
  | .concatenated _ children => repeatFreeAll children
  | .repeated _ _ _ => false
  | .faceted _ template => repeatFree template
  | .malformed _ _ => true

/-- Whether nothing is repeated in several specifications. -/
def repeatFreeAll : List ViewSpec → Bool
  | [] => true
  | spec :: specs => repeatFree spec && repeatFreeAll specs

end

/-- The specification under a name of its own. -/
def withName (name : String) (spec : ViewSpec) : ViewSpec :=
  spec.withHead { spec.head with name := some name }

/-- The instances of a repeated template, written out. -/
def spread (axes : RepeatAxes) (template : ViewSpec) : List ViewSpec :=
  (axes.stops .row).flatMap fun r => (axes.stops .column).map fun c =>
    (template.settled ⟨r.map Prod.fst, c.map Prod.fst⟩).withName
      ("repeat" ++ RepeatAxes.suffix .row r ++ RepeatAxes.suffix .column c)

theorem head_settled (r : Repeater) (spec : ViewSpec) :
    (spec.settled r).head = spec.head.settled r := by
  cases spec <;> rw [settled] <;> rfl

theorem spread_eq (axes : RepeatAxes) (template : ViewSpec) :
    template.spread axes =
      axes.instances.map fun i => (template.settled i.repeater).withName i.label := by
  rw [RepeatAxes.instances_eq, List.map_flatMap, spread]
  simp only [List.map_map]
  rfl

end ViewSpec

/-! ## Trees -/

/-- The unit view without the fields that it stands for, unless it is on a diagonal. -/
def UnitView.unrepeated (u : UnitView) : UnitView :=
  { u with repeater := u.repeater.filter Repeater.isDiagonal }

/-- The content as it is in a concatenation. -/
def ViewContent.unrepeated : ViewContent → ViewContent
  | .unit u => .unit u.unrepeated
  | .composite k =>
    .composite { k with kind := if k.kind = .repetition then .concat else k.kind }

theorem ViewContent.alike_unrepeated (config : SelectionConfig) (content : ViewContent) :
    content.Alike config config content.unrepeated := by
  cases content with
  | unit u =>
    refine .unit ⟨rfl, rfl, ?_, List.forall₂_same.mpr fun e _ => ⟨rfl, rfl⟩⟩
    obtain ⟨mark, encoding, selections, repeater⟩ := u
    cases repeater with
    | none => rfl
    | some r =>
      simp only [UnitView.unrepeated, UnitView.isDiagonal, Option.filter]
      split <;> simp_all
  | composite k =>
    obtain ⟨kind, resolve⟩ := k
    refine .composite (fun c => ?_) ?_
    · cases kind <;> rfl
    · cases kind <;> simp

namespace Place
variable (name : String) (parent : Option ViewId) (r : Repeater)

theorem danglingAxis?_settled (c : ChannelSpec) :
    danglingAxis? ⟨name, parent, none⟩ (c.settled r) = danglingAxis? ⟨name, parent, some r⟩ c := by
  match c with
  | .list => rfl
  | .single ⟨none, _, _, _, _⟩ => rfl
  | .single ⟨some (.named _), _, _, _, _⟩ => rfl
  | .single ⟨some (.repeated axis), _, _, _, _⟩ =>
    cases h : r.value axis <;>
      simp [ChannelSpec.settled, FieldSource.settled, danglingAxis?, repeatedField?, h]

theorem channelDef?_settled (c : ChannelSpec) :
    channelDef? ⟨name, parent, none⟩ (c.settled r) = channelDef? ⟨name, parent, some r⟩ c := by
  match c with
  | .list => rfl
  | .single ⟨none, _, _, _, _⟩ => rfl
  | .single ⟨some (.named _), _, _, _, _⟩ => rfl
  | .single ⟨some (.repeated axis), _, _, _, _⟩ =>
    cases h : r.value axis <;>
      simp [ChannelSpec.settled, FieldSource.settled, channelDef?, field?, repeatedField?, h]

/-- Off the diagonal, a view says the same outside the repetition once references are
settled. -/
theorem unitView_settled {r : Repeater} (hr : r.isDiagonal = false) (head : ViewHead)
    (mark : Mark) :
    unitView ⟨name, parent, none⟩ (head.settled r) mark =
      UnitView.unrepeated <$> unitView ⟨name, parent, some r⟩ head mark := by
  have hvalues : (head.settled r).encoding.values =
      head.encoding.values.map (ChannelSpec.settled r) := by
    simp [ViewHead.settled, Table.values, Table.filterMap]
  have hencoding : ((head.settled r).encoding.filterMap fun _ => channelDef? ⟨name, parent, none⟩) =
      head.encoding.filterMap fun _ => channelDef? ⟨name, parent, some r⟩ := by
    refine Table.ext_entries ?_
    simp [ViewHead.settled, Table.filterMap, List.filterMap_map, channelDef?_settled]
  have hdangling : (head.settled r).encoding.values.findSome? (danglingAxis? ⟨name, parent, none⟩) =
      head.encoding.values.findSome? (danglingAxis? ⟨name, parent, some r⟩) := by
    rw [hvalues, List.findSome?_map]
    exact congrArg (List.findSome? · _) (funext (danglingAxis?_settled name parent r))
  rw [unitView, unitView, hdangling, hencoding]
  cases head.encoding.values.findSome? (danglingAxis? ⟨name, parent, some r⟩) with
  | some axis => rfl
  | none => simp [UnitView.unrepeated, ViewHead.settled, Option.filter, hr]

end Place

namespace ViewTree

/-- The name of a view is given with its place. -/
theorem expand_withName (name : String) (spec : ViewSpec) (t : ViewTree) (p : Place) :
    t.expand p (spec.withName name) = t.expand p spec := by
  apply expand_withHead <;> rfl

/-- Adding an arrangement that is no repetition, inside of one or outside. -/
theorem addAt_bind_unrepeated {t : ViewTree} {name : String} {parent : Option ViewId}
    {r r' : Option Repeater} {kind : CompositeKind} (hkind : kind ≠ .repetition)
    {resolve : Table Channel ResolveMode}
    {rest rest' : ViewTree → Except CompileError ViewTree}
    (h : ∀ t', rest' (t'.mapContent ViewContent.unrepeated) =
      mapContent ViewContent.unrepeated <$> rest t') :
    (do (t.mapContent ViewContent.unrepeated).checkName name
        let t' ← (t.mapContent ViewContent.unrepeated).addAt ⟨name, parent, r'⟩
          (.composite ⟨kind, resolve⟩)
        rest' t') =
      mapContent ViewContent.unrepeated <$> (do
        t.checkName name
        let t' ← t.addAt ⟨name, parent, r⟩ (.composite ⟨kind, resolve⟩)
        rest t') := by
  have hsame : ViewContent.composite ⟨kind, resolve⟩ =
      ViewContent.unrepeated (.composite ⟨kind, resolve⟩) := by
    rw [ViewContent.unrepeated, if_neg hkind]
  nth_rewrite 1 [hsame]
  exact addAt_bind_mapContent (p := ⟨name, parent, r⟩) h

mutual

/-- A template with its references settled expands outside of a repetition to what it would
expand to as an instance. -/
theorem expand_settled {r : Repeater} (hr : r.isDiagonal = false) (spec : ViewSpec)
    (hfree : spec.repeatFree = true) (t : ViewTree) (name : String) (parent : Option ViewId) :
    (t.mapContent ViewContent.unrepeated).expand ⟨name, parent, none⟩ (spec.settled r) =
      mapContent ViewContent.unrepeated <$> t.expand ⟨name, parent, some r⟩ spec := by
  match spec with
  | .malformed _ _ =>
    rw [ViewSpec.settled, expand, expand, checkName_mapContent, map_bind]
    rfl
  | .unit head mark =>
    rw [ViewSpec.settled, expand, expand, checkName_mapContent, Place.unitView_settled _ _ hr,
      map_bind]
    refine bind_congr fun _ => ?_
    rw [bind_map_left, map_bind]
    -- of a place, only the name and the parent go into the tree
    exact bind_congr fun u => addAt_mapContent ⟨name, parent, some r⟩ (.unit u)
  | .layered _ children | .concatenated _ children =>
    rw [ViewSpec.repeatFree] at hfree
    rw [ViewSpec.settled, expand, expand, size_mapContent]
    refine addAt_bind_unrepeated (by decide) fun t' => ?_
    exact expandAll_settled hr children hfree t' _ _ _ _ _
  | .repeated _ _ _ => cases hfree
  | .faceted _ template =>
    rw [ViewSpec.repeatFree] at hfree
    rw [ViewSpec.settled, expand, expand, size_mapContent, ViewSpec.head_settled]
    refine addAt_bind_unrepeated (by decide) fun t' => ?_
    exact expand_settled hr template hfree t' _ _

theorem expandAll_settled {r : Repeater} (hr : r.isDiagonal = false) (specs : List ViewSpec)
    (hfree : ViewSpec.repeatFreeAll specs = true) (t : ViewTree) (parent : ViewId) (name : String)
    (above : Option ViewId) (word : String) (index : Nat) :
    (t.mapContent ViewContent.unrepeated).expandAll parent ⟨name, above, none⟩ word index
        (ViewSpec.settledAll r specs) =
      mapContent ViewContent.unrepeated <$>
        t.expandAll parent ⟨name, above, some r⟩ word index specs := by
  match specs with
  | [] => rfl
  | c :: cs =>
    obtain ⟨hc, hcs⟩ := Bool.and_eq_true_iff.mp hfree
    rw [ViewSpec.settledAll, expandAll, expandAll, ViewSpec.head_settled, expand_settled hr c hc,
      bind_map_left, map_bind]
    exact bind_congr fun t' => expandAll_settled hr cs hcs _ _ _ _ _ _

end

/-- Instances side by side expand to the instances of the repetition. -/
theorem expandAll_spread {template : ViewSpec} (hfree : template.repeatFree = true)
    {is : List RepeatInstance} (his : ∀ i ∈ is, i.repeater.isDiagonal = false) (t : ViewTree)
    (name word : String) (index : Nat) :
    (t.mapContent ViewContent.unrepeated).expandAll root ⟨name, none, none⟩ word index
        (is.map fun i => (template.settled i.repeater).withName i.label) =
      mapContent ViewContent.unrepeated <$>
        is.foldlM (fun t' i => t'.expand
          ⟨Place.childName root name none i.label, some root, some i.repeater⟩ template) t := by
  induction is generalizing t index with
  | nil => rfl
  | cons i is ih =>
    have hname : ((template.settled i.repeater).withName i.label).head.name = some i.label := by
      rw [ViewSpec.withName, ViewSpec.head_withHead]
    rw [List.map_cons, expandAll, List.foldlM_cons, hname, expand_withName,
      expand_settled (his i List.mem_cons_self) template hfree, bind_map_left, map_bind]
    exact bind_congr fun t' => ih (fun j hj => his j (List.mem_cons_of_mem i hj)) t' _

/-- The tree of a repetition, seen as a concatenation, is that of its instances side by
side. -/
theorem ofSpec_spread (head : ViewHead) {axes : RepeatAxes} {template : ViewSpec}
    (hfree : template.repeatFree = true)
    (hdisjoint : (axes.fields .row).Disjoint (axes.fields .column)) :
    ofSpec (.concatenated head (template.spread axes)) =
      mapContent ViewContent.unrepeated <$> ofSpec (.repeated head axes template) := by
  rw [ofSpec, ofSpec, expand, expand, ViewSpec.spread_eq]
  -- there is nothing yet whose content could be exchanged, and the root is numbered first
  refine addAt_bind_mapContent (t := empty) (g := ViewContent.unrepeated)
    (c := .composite ⟨.repetition, head.resolve⟩) fun t' => ?_
  exact expandAll_spread hfree (fun i hi => RepeatAxes.not_isDiagonal hdisjoint hi) t' _ _ _

/-- The root is a repetition, and no other view is. -/
structure RepeatsAtRoot (t : ViewTree) : Prop where
  size_pos : 0 < t.size
  kindName_eq_iff : ∀ {v n}, t.get? v = some n → (n.content.kindName = "repeat" ↔ v = root)

theorem RepeatsAtRoot.addAt {t t' : ViewTree} {p : Place} {content : ViewContent}
    (ht : t.RepeatsAtRoot) (h : t.addAt p content = .ok t')
    (hcontent : content.kindName ≠ "repeat") : t'.RepeatsAtRoot := by
  obtain ⟨rfl, _⟩ := addAt_ok h
  constructor
  · rw [size, List.length_append]
    exact Nat.lt_add_right _ ht.size_pos
  · intro v n hv
    rcases get?_append.mp hv with hv | ⟨rfl, rfl⟩
    · exact ht.kindName_eq_iff hv
    · exact iff_of_false hcontent (Nat.ne_of_gt ht.size_pos)

mutual

/-- A template without repetitions adds none. -/
theorem RepeatsAtRoot.expand {t t' : ViewTree} {p : Place} (ht : t.RepeatsAtRoot)
    (spec : ViewSpec) (hfree : spec.repeatFree = true) (h : t.expand p spec = .ok t') :
    t'.RepeatsAtRoot := by
  match spec with
  | .malformed _ _ =>
    rw [ViewTree.expand] at h
    obtain ⟨_, _, h⟩ := Except.bind_eq_ok.mp h
    cases h
  | .unit _ _ =>
    rw [ViewTree.expand] at h
    obtain ⟨_, _, h⟩ := Except.bind_eq_ok.mp h
    obtain ⟨u, _, h⟩ := Except.bind_eq_ok.mp h
    exact ht.addAt h (by simp [ViewContent.kindName])
  | .layered _ children | .concatenated _ children =>
    rw [ViewTree.expand] at h
    obtain ⟨_, _, h⟩ := Except.bind_eq_ok.mp h
    obtain ⟨t₁, h₁, h⟩ := Except.bind_eq_ok.mp h
    have ht₁ := ht.addAt h₁ (by simp [ViewContent.kindName, CompositeKind.name])
    exact ht₁.expandAll children hfree h
  | .repeated _ _ _ => cases hfree
  | .faceted _ template =>
    rw [ViewTree.expand] at h
    obtain ⟨_, _, h⟩ := Except.bind_eq_ok.mp h
    obtain ⟨t₁, h₁, h⟩ := Except.bind_eq_ok.mp h
    have ht₁ := ht.addAt h₁ (by simp [ViewContent.kindName, CompositeKind.name])
    exact ht₁.expand template hfree h

theorem RepeatsAtRoot.expandAll {t t' : ViewTree} {parent : ViewId} {p : Place} {word : String}
    {index : Nat} (ht : t.RepeatsAtRoot) (specs : List ViewSpec)
    (hfree : ViewSpec.repeatFreeAll specs = true)
    (h : t.expandAll parent p word index specs = .ok t') : t'.RepeatsAtRoot := by
  match specs with
  | [] =>
    obtain rfl := Except.ok.inj h
    exact ht
  | c :: cs =>
    obtain ⟨hc, hcs⟩ := Bool.and_eq_true_iff.mp hfree
    rw [ViewTree.expandAll] at h
    obtain ⟨t₁, h₁, h⟩ := Except.bind_eq_ok.mp h
    exact (ht.expand c hc h₁).expandAll cs hcs h

end

theorem ofSpec_repeatsAtRoot {head : ViewHead} {axes : RepeatAxes} {template : ViewSpec}
    {t : ViewTree} (hfree : template.repeatFree = true)
    (h : ofSpec (.repeated head axes template) = .ok t) : t.RepeatsAtRoot := by
  rw [ofSpec, expand] at h
  obtain ⟨_, _, h⟩ := Except.bind_eq_ok.mp h
  obtain ⟨t₁, h₁, h⟩ := Except.bind_eq_ok.mp h
  have ht₁ : t₁.RepeatsAtRoot := by
    obtain ⟨rfl, _⟩ := addAt_ok h₁
    refine ⟨Nat.one_pos, fun {v n} hv => ?_⟩
    rcases get?_append.mp hv with hv | ⟨rfl, rfl⟩
    · exact absurd hv (get?_empty_ne_some v n)
    · exact iff_of_true rfl rfl
  exact foldlM_ok_induction RepeatsAtRoot
    (fun t₂ t₃ _ _ ht₂ h₃ => ht₂.expand template hfree h₃) h ht₁

end ViewTree

/-! ## Artifacts -/

/-- The artifact with the outermost view of another kind. -/
def Artifact.withRootKind (kind : String) (a : Artifact) : Artifact :=
  { a with views := a.views.modifyHead fun v => { v with kind := kind } }

theorem ViewContent.kindName_unrepeated {content : ViewContent}
    (h : content.kindName ≠ "repeat") : content.unrepeated.kindName = content.kindName := by
  cases content with
  | unit u => rfl
  | composite k =>
    have hk : k.kind ≠ .repetition := fun he => h (congrArg CompositeKind.name he)
    rw [unrepeated, if_neg hk]

namespace Compilation
variable {c : Compilation}

/-- Seen as a concatenation, a repetition differs in the kind of its root alone. -/
theorem artifact_unrepeated (config : SelectionConfig) (hw : c.tree.WellFormed)
    (hroot : c.tree.RepeatsAtRoot) :
    c.artifact =
      Artifact.withRootKind "repeat" <$> (c.mapContent ViewContent.unrepeated).artifact := by
  have hg : ∀ {v n}, c.tree.get? v = some n →
      n.content.Alike config config n.content.unrepeated :=
    fun {_ n} _ => n.content.alike_unrepeated config
  obtain ⟨n, rest, hwalk, hrest⟩ := ViewTree.exists_preorder_eq_cons hw hroot.size_pos
  have hn : (ViewTree.root, n) ∈ c.tree.preorder := hwalk ▸ List.mem_cons_self
  have hfirst : n.content.kindName = "repeat" :=
    (hroot.kindName_eq_iff (ViewTree.get?_of_mem_preorder hn)).mpr rfl
  have hothers : ∀ v ∈ rest, (c.mapContent ViewContent.unrepeated).compiledView
      (v.1, v.2.mapContent ViewContent.unrepeated) = c.compiledView v := by
    intro v hv
    have hmem : v ∈ c.tree.preorder := hwalk ▸ List.mem_cons_of_mem _ hv
    have hkind : v.2.content.kindName ≠ "repeat" := fun he =>
      hrest v hv ((hroot.kindName_eq_iff (ViewTree.get?_of_mem_preorder hmem)).mp he)
    rw [compiledView_eq_map, compiledView_eq_map, partsOf_mapContent hg hmem,
      ViewNode.name_mapContent, ViewNode.mapContent, ViewContent.kindName_unrepeated hkind]
  have hwalk' : (c.mapContent ViewContent.unrepeated).tree.preorder =
      c.tree.preorder.map fun v => (v.1, v.2.mapContent ViewContent.unrepeated) :=
    ViewTree.preorder_mapContent
  rw [artifact, artifact, topLevel_mapContent hg, hwalk', hwalk, List.map_cons, Diagnosed.forEach,
    Diagnosed.forEach, Diagnosed.forEach_map_congr hothers, compiledView_eq_map,
    compiledView_eq_map, partsOf_mapContent hg hn, hfirst]
  simp only [map_bind, bind_map_left, bind_assoc, map_pure]
  rfl

end Compilation

/-- **Repetition only saves writing.**  With the instances of the template written out side by
side, each under the name and with the fields that the repetition would give it, a
specification compiles to the same artifact but for the kind of the root, with the same
warnings, or fails in the same way.  This needs a template that does not repeat anything
itself, and rows and columns that have no field in common. -/
theorem compile_spread (head : ViewHead) (axes : RepeatAxes) (template : ViewSpec)
    (hfree : template.repeatFree = true)
    (hdisjoint : (axes.fields .row).Disjoint (axes.fields .column)) :
    (compile (.repeated head axes template)).result =
        (compile (.concatenated head (template.spread axes))).result.map
          (Artifact.withRootKind "repeat") ∧
      (compile (.repeated head axes template)).warnings =
        (compile (.concatenated head (template.spread axes))).warnings := by
  have hcompile : compile (.repeated head axes template) = Artifact.withRootKind "repeat" <$>
      compile (.concatenated head (template.spread axes)) := by
    have hofSpec := Compilation.ofSpec_mapContent (ViewTree.ofSpec_spread head hfree hdisjoint)
      (fun t _ v n _ => n.content.alike_unrepeated head.config)
    rw [compile, compile, hofSpec, bind_map_left, map_bind]
    refine Diagnosed.bind_congr_of_result fun c hc => ?_
    have htree := (Compilation.ofSpec_steps hc).1
    exact Compilation.artifact_unrepeated head.config (ViewTree.ofSpec_wellFormed htree).1
      (ViewTree.ofSpec_repeatsAtRoot hfree htree)
  rw [hcompile, Diagnosed.map_result, Diagnosed.map_warnings]
  exact ⟨rfl, rfl⟩

/-- A cell of a cross table: the field of its row and a fixed one, both over the field of its
column. -/
def ViewSpec.crossCell : ViewSpec :=
  .layered { (default : ViewHead) with name := some "cell" }
    [points [(.x, .numericAlong .column), (.y, .numericAlong .row)]
        [("grid", .scaleBound [.x, .size])],
      points [(.x, .numericAlong .column), (.y, .numeric "D")] []]

/-- The same cell for a row and a column that are given. -/
def ViewSpec.crossCellOf (name row column : String) : ViewSpec :=
  .layered { (default : ViewHead) with name := some name }
    [points [(.x, .numeric column), (.y, .numeric row)] [("grid", .scaleBound [.x, .size])],
      points [(.x, .numeric column), (.y, .numeric "D")] []]

/-- Both cells are panned, and both warn of the channel that they do not show. -/
theorem compile_spread_crossTable :
    ∃ a a',
      (compile (.repeated default (.grid ["A"] ["B", "C"]) .crossCell)).result = .ok a ∧
      (compile (.concatenated default
        [.crossCellOf "repeat_row_0_column_0" "A" "B",
          .crossCellOf "repeat_row_0_column_1" "A" "C"])).result = .ok a' ∧
      a = a'.withRootKind "repeat" ∧
      a.views.map CompiledView.kind = ["repeat", "layer", "unit", "unit", "layer", "unit", "unit"] ∧
      a'.views.map CompiledView.kind =
        ["concat", "layer", "unit", "unit", "layer", "unit", "unit"] ∧
      (compile (.repeated default (.grid ["A"] ["B", "C"]) .crossCell)).warnings.length = 2 := by
  have hspread : ViewSpec.crossCell.spread (.grid ["A"] ["B", "C"]) =
      [.crossCellOf "repeat_row_0_column_0" "A" "B",
        .crossCellOf "repeat_row_0_column_1" "A" "C"] := rfl
  obtain ⟨hresult, hwarnings⟩ :=
    compile_spread default (.grid ["A"] ["B", "C"]) .crossCell rfl
      (by simp [RepeatAxes.fields, RepeatAxes.fields?])
  rw [hspread] at hresult hwarnings
  exact ⟨_, _, hresult, rfl, rfl, by decide +kernel, by decide +kernel,
    (congrArg List.length hwarnings).trans (by decide +kernel)⟩

end BrushLink
