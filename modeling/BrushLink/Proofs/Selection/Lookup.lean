import BrushLink.Proofs.Selection.Conflict
import BrushLink.Proofs.View.Growth

/-! # What a name means

The registry is filled in two rounds: first the names are collected, then a component
is made of each declaration.  Both rounds go through the same declarations
(`Registry.Completed`), so a unit view ends up with one component for each selection
that it declares, on the terms registered for the name, and the registered views are
those that declare it.

Which declaration a name means from a given view is said without the registry
(`ViewTree.Means`): go up until a view has a declaration of the name beneath it, and
take the first of these.  The registry finds exactly that, and finds nothing only if
there is nothing (`Registry.Completed.lookup_eq_some_iff`, `lookup_eq_none_iff`).
-/
namespace BrushLink

/-! ## Views and the names declared beneath them -/

namespace ViewTree
variable {t : ViewTree} {n : String} {v a u : ViewId}

/-- The places of the unit views that declare a name, in the order of the walk. -/
def declaringIds (t : ViewTree) (n : String) : List ViewId := (t.declaring n).map Prod.fst

/-- The view is, or has beneath it, a unit view that declares the name. -/
def Holds (t : ViewTree) (n : String) (a : ViewId) : Prop := ∃ u ∈ t.declaringIds n, t.Within u a

/-- Of the unit views at or beneath a view that declare a name, the first of the walk. -/
def FirstIn (t : ViewTree) (n : String) (a u : ViewId) : Prop :=
  ∃ before after, t.declaringIds n = before ++ u :: after ∧ t.Within u a ∧
    ∀ w ∈ before, ¬ t.Within w a

/-- The unit view that a name means, seen from a view: the first that declares it in the
nearest scope where the name is declared. -/
def Means (t : ViewTree) (v : ViewId) (n : String) (u : ViewId) : Prop :=
  ∃ scope, t.Within v scope ∧ (∀ a, t.Within v a → t.Holds n a → t.Within scope a) ∧
    t.FirstIn n scope u

theorem Means.mem_declaringIds (h : t.Means v n u) : u ∈ t.declaringIds n := by
  obtain ⟨_, _, _, before, after, hsplit, _⟩ := h
  rw [hsplit]
  exact List.mem_append_right _ List.mem_cons_self

theorem Within.antisymm (hw : t.WellFormed) (h : t.Within v a) (h' : t.Within a v) : v = a :=
  Nat.le_antisymm (h'.le hw) (h.le hw)

theorem declaringIds_nodup (hw : t.WellFormed) (n : String) : (t.declaringIds n).Nodup :=
  (units_nodup hw).sublist (List.filter_sublist.map _)

theorem mem_declaringIds :
    v ∈ t.declaringIds n ↔ ∃ view u, (v, view, u) ∈ t.units ∧ u.selections.contains n = true := by
  rw [declaringIds, List.mem_map]
  constructor
  · rintro ⟨⟨v, view, u⟩, hu, rfl⟩
    exact ⟨view, u, List.mem_filter.mp hu⟩
  · rintro ⟨view, u, hu⟩
    exact ⟨(v, view, u), List.mem_filter.mpr hu, rfl⟩

theorem exists_get?_of_mem_declaringIds (h : v ∈ t.declaringIds n) : ∃ m, t.get? v = some m := by
  obtain ⟨_, _, hu, _⟩ := mem_declaringIds.mp h
  obtain ⟨m, hm, _⟩ := exists_node_of_mem_units hu
  exact ⟨m, hm⟩

theorem climb_contains_iff (hw : t.WellFormed) (h : u ∈ t.declaringIds n) :
    (t.climb t.size u).contains a = true ↔ t.Within u a := by
  obtain ⟨m, hm⟩ := exists_get?_of_mem_declaringIds h
  rw [List.contains_iff_mem, mem_climb hw (lt_size_of_get? hm)]

/-- The search for the first declaring view beneath a view. -/
def firstIn? (t : ViewTree) (n : String) (a : ViewId) : Option ViewId :=
  (t.declaringIds n).find? fun u => (t.climb t.size u).contains a

theorem firstIn?_eq_some_iff (hw : t.WellFormed) : t.firstIn? n a = some u ↔ t.FirstIn n a u := by
  rw [firstIn?, List.find?_eq_some_iff_append]
  constructor
  · rintro ⟨hu, before, after, hsplit, hbefore⟩
    have hmem : ∀ w ∈ before ++ u :: after, w ∈ t.declaringIds n := fun w h => hsplit ▸ h
    refine ⟨before, after, hsplit, (climb_contains_iff hw (hmem u (by simp))).mp hu, ?_⟩
    intro w hwb hwithin
    have hcontains := (climb_contains_iff hw (hmem w (List.mem_append_left _ hwb))).mpr hwithin
    have hnot := hbefore w hwb
    rw [hcontains] at hnot
    cases hnot
  · rintro ⟨before, after, hsplit, hu, hbefore⟩
    have hmem : ∀ w ∈ before ++ u :: after, w ∈ t.declaringIds n := fun w h => hsplit ▸ h
    refine ⟨(climb_contains_iff hw (hmem u (by simp))).mpr hu, before, after, hsplit, ?_⟩
    intro w hwb
    rw [Bool.not_eq_true']
    refine Bool.eq_false_iff.mpr fun hcontains => hbefore w hwb ?_
    exact (climb_contains_iff hw (hmem w (List.mem_append_left _ hwb))).mp hcontains

theorem firstIn?_eq_none_iff (hw : t.WellFormed) : t.firstIn? n a = none ↔ ¬ t.Holds n a := by
  rw [firstIn?, List.find?_eq_none, Holds, not_exists]
  refine forall_congr' fun u => ?_
  rw [not_and]
  refine forall_congr' fun hu => ?_
  rw [climb_contains_iff hw hu]

/-- Going up, the first view that finds a declaration is the nearest scope. -/
theorem findSome?_firstIn?_eq_some_iff (hw : t.WellFormed) (hv : v < t.size) :
    (t.climb t.size v).findSome? (t.firstIn? n) = some u ↔ t.Means v n u := by
  rw [List.findSome?_eq_some_iff]
  constructor
  · rintro ⟨nearer, scope, further, hclimb, hfirst, hnearer⟩
    have hmem : ∀ {a}, t.Within v a ↔ a ∈ nearer ++ scope :: further := by
      intro a
      rw [← hclimb, mem_climb hw hv]
    have hpair := t.climb_pairwise t.size v
    rw [hclimb, List.pairwise_append] at hpair
    refine ⟨scope, hmem.mpr (by simp), ?_, (firstIn?_eq_some_iff hw).mp hfirst⟩
    intro a ha hholds
    rcases List.mem_append.mp (hmem.mp ha) with hin | hin
    · exact absurd hholds ((firstIn?_eq_none_iff hw).mp (hnearer a hin))
    · rcases List.mem_cons.mp hin with rfl | hin
      · exact .refl a
      · exact (List.pairwise_cons.mp hpair.2.1).1 a hin
  · rintro ⟨scope, hscope, hnearest, hfirst⟩
    obtain ⟨nearer, further, hclimb, hfresh⟩ :=
      List.eq_append_cons_of_mem ((mem_climb hw hv).mpr hscope)
    have hpair := t.climb_pairwise t.size v
    rw [hclimb, List.pairwise_append] at hpair
    refine ⟨nearer, scope, further, hclimb, (firstIn?_eq_some_iff hw).mpr hfirst, ?_⟩
    intro a ha
    refine (firstIn?_eq_none_iff hw).mpr fun hholds => ?_
    have hva : t.Within v a := (mem_climb hw hv).mp (hclimb ▸ List.mem_append_left _ ha)
    have hbelow : t.Within a scope := hpair.2.2 a ha scope List.mem_cons_self
    -- the scope is beneath every view that holds the name, so a nearer one is the scope
    obtain rfl := hbelow.antisymm hw (hnearest a hva hholds)
    exact hfresh ha

/-- Seen from any view, a declared name means something: the root has all declarations
beneath it. -/
theorem findSome?_firstIn?_eq_none_iff (hw : t.WellFormed) {m : ViewNode} (hv : t.get? v = some m) :
    (t.climb t.size v).findSome? (t.firstIn? n) = none ↔ t.declaring n = [] := by
  rw [List.findSome?_eq_none_iff]
  constructor
  · intro hnone
    by_contra hne
    obtain ⟨u, hu⟩ := List.exists_mem_of_ne_nil _ hne
    have hmem : u.1 ∈ t.declaringIds n := List.mem_map_of_mem hu
    obtain ⟨m', hm'⟩ := exists_get?_of_mem_declaringIds hmem
    have hroot := (mem_climb hw (lt_size_of_get? hv)).mpr (Within.to_root hw hv)
    exact (firstIn?_eq_none_iff hw).mp (hnone _ hroot) ⟨u.1, hmem, .to_root hw hm'⟩
  · intro hnil a _
    rw [firstIn?, declaringIds, hnil]
    rfl

end ViewTree

/-! ## A registry that is filled -/

theorem mapM_eq_ok_map {ε α β : Type} {f : α → Except ε β} {g : α → β} {as : List α}
    (h : ∀ a ∈ as, f a = .ok (g a)) : as.mapM f = .ok (as.map g) := by
  induction as with
  | nil => rfl
  | cons a as ih =>
    rw [List.mapM_cons, h a List.mem_cons_self, ih fun b hb => h b (List.mem_cons_of_mem _ hb)]
    rfl

/-- A search need not look ahead at a second step that always succeeds. -/
theorem findSome?_bind {α β γ : Type} {f : α → Option β} {g : β → Option γ} {as : List α}
    (h : ∀ a ∈ as, ∀ b, f a = some b → ∃ c, g b = some c) :
    as.findSome? (fun a => (f a).bind g) = (as.findSome? f).bind g := by
  induction as with
  | nil => rfl
  | cons a as ih =>
    have hrest := ih fun b hb => h b (List.mem_cons_of_mem _ hb)
    cases ha : f a with
    | none => rw [List.findSome?_cons, List.findSome?_cons, ha, Option.bind_none, hrest]
    | some b =>
      obtain ⟨c, hc⟩ := h a List.mem_cons_self b ha
      rw [List.findSome?_cons, List.findSome?_cons, ha, Option.bind_some, hc]

/-- A component has the place, the name and the terms of a declaration. -/
structure Component.MadeOf (k : Component) (d : Declaration) : Prop where
  unit : k.unit = d.unit
  name : k.name = d.name
  type : k.type = d.selection.type
  resolve : k.resolve = d.resolve
  bind : k.bind = d.selection.settings.bind

namespace Registry
variable {tree : ViewTree} {config : SelectionConfig} {r : Registry}

/-- Both rounds have gone through the declarations of the tree. -/
structure Completed (r : Registry) (tree : ViewTree) (config : SelectionConfig) : Prop where
  collectable : Collectable tree config
  records : r.Records (tree.declarations.map (·.filled config))
  components : List.Forall₂ (fun d k => k.MadeOf (d.filled config)) tree.declarations r.components

theorem entries_foldl_attach (ks : List Component) (r : Registry) :
    (ks.foldl attach r).entries = r.entries := by
  induction ks generalizing r with
  | nil => rfl
  | cons k ks ih => rw [List.foldl_cons, ih, attach]

theorem completed_of_parse {scales scales' : ScaleTable}
    (h : (parseSelections tree config scales).result = .ok (scales', r)) :
    r.Completed tree config := by
  obtain ⟨parsed, hparsed, _, hcomponents⟩ := parseSelections_ok h
  obtain ⟨collected, hcollect, h⟩ := Diagnosed.bind_result_ok.mp h
  obtain ⟨_, _, h⟩ := Diagnosed.bind_result_ok.mp h
  have hentries : r.entries = collected.entries := by
    split at h
    · cases h
    · obtain ⟨rfl, rfl⟩ := Prod.mk.inj (Except.ok.inj h)
      exact entries_foldl_attach _ _
  refine ⟨collect_ok_iff.mp ⟨_, hcollect⟩, ?_, ?_⟩
  · intro n
    rw [hentries]
    exact collect_records hcollect n
  · rw [hcomponents, List.forall₂_map_right_iff]
    refine hparsed.imp fun d p hp => ?_
    obtain ⟨_, scope, outer, _, _, rfl⟩ := Declaration.parse_ok hp
    exact ⟨rfl, rfl, rfl, rfl, rfl⟩

namespace Completed

theorem filter_declarations_eq (hw : tree.WellFormed) {v : ViewId} {view : String} {u : UnitView}
    (hu : (v, view, u) ∈ tree.units) :
    tree.declarations.filter (fun d => d.unit = v) = ViewTree.declarationsOn v view u := by
  obtain ⟨before, after, hsplit⟩ := List.append_of_mem hu
  have hnodup := ViewTree.units_nodup hw
  rw [hsplit, List.map_append, List.map_cons, List.nodup_middle, List.nodup_cons] at hnodup
  have hother : ∀ us : List (ViewId × String × UnitView), (∀ w ∈ us, w.1 ≠ v) →
      us.flatMap (fun w => (ViewTree.declarationsOn w.1 w.2.1 w.2.2).filter fun d => d.unit = v) =
        [] := by
    intro us hus
    refine List.flatMap_eq_nil_iff.mpr fun w hw => List.filter_eq_nil_iff.mpr fun d hd => ?_
    obtain ⟨e, _, rfl⟩ := List.mem_map.mp hd
    simpa using hus w hw
  have hne : ∀ w ∈ before ++ after, w.1 ≠ v := by
    intro w hw he
    refine hnodup.1 ?_
    rw [← List.map_append]
    exact List.mem_map.mpr ⟨w, hw, he⟩
  have hown : (ViewTree.declarationsOn v view u).filter (fun d => d.unit = v) =
      ViewTree.declarationsOn v view u := by
    refine List.filter_eq_self.mpr fun d hd => ?_
    obtain ⟨e, _, rfl⟩ := List.mem_map.mp hd
    simp
  rw [ViewTree.declarations, hsplit, List.filter_flatMap, List.flatMap_append, List.flatMap_cons,
    hown, hother before fun w hw => hne w (List.mem_append_left _ hw),
    hother after fun w hw => hne w (List.mem_append_right _ hw), List.nil_append, List.append_nil]

/-- A unit view has one component for each selection that it declares. -/
theorem forall₂_componentsOf (hw : tree.WellFormed) (h : r.Completed tree config)
    {v : ViewId} {view : String} {u : UnitView} (hu : (v, view, u) ∈ tree.units) :
    List.Forall₂ (fun e k => k.MadeOf (Declaration.filled config ⟨v, view, u, e.1, e.2⟩))
      u.selections.entries (r.componentsOf v) := by
  have hfilter : List.Forall₂ (fun d k => k.MadeOf (Declaration.filled config d))
      (tree.declarations.filter fun d => d.unit = v) (r.componentsOf v) := by
    refine List.rel_filter (fun d k hk => ?_) h.components
    have hunit : k.unit = d.unit := hk.unit
    simp [hunit]
  rwa [filter_declarations_eq hw hu, ViewTree.declarationsOn, List.forall₂_map_left_iff] at hfilter

theorem names_componentsOf (hw : tree.WellFormed) (h : r.Completed tree config)
    {v : ViewId} {view : String} {u : UnitView} (hu : (v, view, u) ∈ tree.units) :
    (r.componentsOf v).map Component.name = u.selections.keys := by
  have hnames : List.Forall₂ (· = ·) u.selections.keys ((r.componentsOf v).map Component.name) :=
    List.forall₂_map_left_iff.mpr (List.forall₂_map_right_iff.mpr
      ((h.forall₂_componentsOf hw hu).imp fun e k hk => hk.name.symm))
  exact (List.forall₂_eq_eq_eq ▸ hnames).symm

theorem map_unit_filter_filled (tree : ViewTree) (config : SelectionConfig) (n : String) :
    ((tree.declarations.map (·.filled config)).filter fun d => d.name = n).map Declaration.unit =
      tree.declaringIds n := by
  rw [List.filter_map, List.map_map, ViewTree.declaringIds, ← ViewTree.map_declarations_named,
    List.map_map]
  rfl

/-- A name that is declared is registered on the terms of its first declaration, with all
views that declare it. -/
theorem entry?_cases (h : r.Completed tree config) (n : String) :
    (r.entry? n = none ∧ tree.declaring n = []) ∨
      ∃ first ∈ tree.declarations, first.name = n ∧ ∃ others,
        r.entry? n = some { SelectionEntry.ofDeclaration (first.filled config) with others } ∧
        first.unit :: others = tree.declaringIds n := by
  have hentry := h.records n
  have hids := map_unit_filter_filled tree config n
  cases hs : (tree.declarations.map (·.filled config)).filter fun d => d.name = n with
  | nil =>
    rw [hs] at hentry hids
    exact Or.inl ⟨hentry, List.map_eq_nil_iff.mp hids.symm⟩
  | cons d others =>
    have hd : d ∈ (tree.declarations.map (·.filled config)).filter fun d => d.name = n := by
      rw [hs]
      exact List.mem_cons_self
    obtain ⟨hd, hname⟩ := List.mem_filter.mp hd
    obtain ⟨first, hfirst, rfl⟩ := List.mem_map.mp hd
    rw [hs] at hentry hids
    exact Or.inr ⟨first, hfirst, of_decide_eq_true hname, _, hentry, hids⟩

/-- The terms of a component are those registered for its name. -/
theorem exists_entry (h : r.Completed tree config) {d : Declaration} (hd : d ∈ tree.declarations)
    {k : Component} (hk : k.MadeOf (d.filled config)) :
    ∃ e, r.entry? d.name = some e ∧ k.type = e.type ∧ k.resolve = e.resolve ∧
      Option.Rel Bind.Alike k.bind e.bind := by
  rcases h.entry?_cases d.name with ⟨_, hnil⟩ | ⟨first, hfirst, hname, others, hentry, _⟩
  · obtain ⟨hu, he⟩ := ViewTree.mem_declarations.mp hd
    have hcontains := Table.contains_iff.mpr (List.mem_map_of_mem he)
    exact absurd (List.mem_filter.mpr ⟨hu, hcontains⟩) (hnil ▸ List.not_mem_nil)
  · have hagrees := h.collectable d hd first hfirst hname.symm
    refine ⟨_, hentry, hk.type.trans hagrees.type, hk.resolve.trans hagrees.resolve, ?_⟩
    rw [hk.bind]
    exact hagrees.bind

/-- The views registered for a name are those that declare it. -/
theorem declaredIn_of_entry? (h : r.Completed tree config) {n : String} {e : SelectionEntry}
    (he : r.entry? n = some e) : e.name = n ∧ e.declaredIn = tree.declaringIds n := by
  rcases h.entry?_cases n with ⟨hnone, _⟩ | ⟨first, _, hname, others, hentry, hids⟩
  · rw [hnone] at he
    cases he
  · rw [hentry] at he
    obtain rfl := Option.some.inj he
    exact ⟨hname, hids⟩

/-- A view has at most one component of a name. -/
theorem names_componentsOf_nodup (hw : tree.WellFormed) (h : r.Completed tree config) (v : ViewId) :
    ((r.componentsOf v).map Component.name).Nodup := by
  cases hks : r.componentsOf v with
  | nil => exact List.nodup_nil
  | cons k ks =>
    obtain ⟨hk, hv⟩ := mem_componentsOf.mp (hks ▸ List.mem_cons_self : k ∈ r.componentsOf v)
    obtain ⟨d, hd⟩ := exists_zip_of_mem_right h.components hk
    have hunit : k.unit = d.unit := (List.forall₂_zip h.components hd).unit
    obtain ⟨hu, _⟩ := ViewTree.mem_declarations.mp (List.of_mem_zip hd).1
    rw [← hunit, hv] at hu
    rw [← hks, h.names_componentsOf hw hu]
    exact d.content.selections.distinct

theorem component?_eq_some_iff (hw : tree.WellFormed) (h : r.Completed tree config) {n : String}
    {u : ViewId} {k : Component} :
    r.component? u n = some k ↔ k ∈ r.componentsOf u ∧ k.name = n :=
  find?_key_eq_some_iff (h.names_componentsOf_nodup hw u)

theorem exists_component? (hw : tree.WellFormed) (h : r.Completed tree config) {n : String}
    {u : ViewId} (hu : u ∈ tree.declaringIds n) : ∃ k, r.component? u n = some k := by
  obtain ⟨view, content, hunit, hcontains⟩ := ViewTree.mem_declaringIds.mp hu
  have hkey := Table.contains_iff.mp hcontains
  rw [← h.names_componentsOf hw hunit] at hkey
  obtain ⟨k, hk, hname⟩ := List.mem_map.mp hkey
  exact ⟨k, (h.component?_eq_some_iff hw).mpr ⟨hk, hname⟩⟩

/-- The search of the registry is the search of the tree, followed by the component of the
view that it found. -/
theorem lookup_eq (hw : tree.WellFormed) (h : r.Completed tree config) {v : ViewId} {m : ViewNode}
    (hv : tree.get? v = some m) (n : String) :
    r.lookup tree v n = .ok (((tree.climb tree.size v).findSome? (tree.firstIn? n)).bind
      fun u => r.component? u n) := by
  rcases h.entry?_cases n with ⟨hnone, hnil⟩ | ⟨first, _, _, others, hentry, hids⟩
  · rw [lookup, hnone, (ViewTree.findSome?_firstIn?_eq_none_iff hw hv).mpr hnil]
    rfl
  · have hdeclaring :
        (tree.declaringIds n).mapM (fun u => (tree.ancestors u).map fun vs => (u, vs)) =
          .ok ((tree.declaringIds n).map fun u => (u, tree.climb tree.size u)) := by
      refine mapM_eq_ok_map fun u hu => ?_
      obtain ⟨m, hm⟩ := ViewTree.exists_get?_of_mem_declaringIds hu
      rw [ViewTree.ancestors_of_get? hm]
      rfl
    rw [lookup, hentry]
    change (do
      let scopes ← tree.ancestors v
      let declaring ← (first.unit :: others).mapM fun u => (tree.ancestors u).map fun vs => (u, vs)
      pure (scopes.findSome? fun scope =>
        (declaring.find? fun (u : ViewId × List ViewId) => u.2.contains scope).bind
          fun u => r.component? u.1 n)) = _
    rw [ViewTree.ancestors_of_get? hv, hids, hdeclaring]
    refine congrArg Except.ok (Eq.trans ?_ (findSome?_bind ?_))
    · refine congrArg (List.findSome? · _) (funext fun a => ?_)
      rw [List.find?_map, Option.bind_map]
      rfl
    · intro a _ u hu
      exact h.exists_component? hw (List.mem_of_find?_eq_some hu)

theorem lookup_eq_some_iff (hw : tree.WellFormed) (h : r.Completed tree config) {v : ViewId}
    {m : ViewNode} (hv : tree.get? v = some m) {n : String} {k : Component} :
    r.lookup tree v n = .ok (some k) ↔
      k ∈ r.components ∧ k.name = n ∧ tree.Means v n k.unit := by
  have hmeans : ∀ {u}, (tree.climb tree.size v).findSome? (tree.firstIn? n) = some u ↔
      tree.Means v n u := ViewTree.findSome?_firstIn?_eq_some_iff hw (ViewTree.lt_size_of_get? hv)
  rw [h.lookup_eq hw hv, Except.ok.injEq, Option.bind_eq_some_iff]
  constructor
  · rintro ⟨u, hu, hk⟩
    obtain ⟨hmem, hname⟩ := (h.component?_eq_some_iff hw).mp hk
    obtain ⟨hcomponents, rfl⟩ := mem_componentsOf.mp hmem
    exact ⟨hcomponents, hname, hmeans.mp hu⟩
  · rintro ⟨hk, hname, hu⟩
    exact ⟨k.unit, hmeans.mpr hu,
      (h.component?_eq_some_iff hw).mpr ⟨mem_componentsOf.mpr ⟨hk, rfl⟩, hname⟩⟩

theorem lookup_eq_none_iff (hw : tree.WellFormed) (h : r.Completed tree config) {v : ViewId}
    {m : ViewNode} (hv : tree.get? v = some m) {n : String} :
    r.lookup tree v n = .ok none ↔ tree.declaring n = [] := by
  rw [h.lookup_eq hw hv, Except.ok.injEq, ← ViewTree.findSome?_firstIn?_eq_none_iff hw hv]
  cases hfind : (tree.climb tree.size v).findSome? (tree.firstIn? n) with
  | none => exact iff_of_true rfl rfl
  | some u =>
    have hmeans :=
      (ViewTree.findSome?_firstIn?_eq_some_iff hw (ViewTree.lt_size_of_get? hv)).mp hfind
    obtain ⟨k, hk⟩ := h.exists_component? hw hmeans.mem_declaringIds
    rw [Option.bind_some, hk]
    exact iff_of_false (Option.some_ne_none k) (Option.some_ne_none u)

end Completed

/-- What the registry of a tree tells is what the tree declares. -/
structure Reflects (r : Registry) (tree : ViewTree) : Prop where
  /-- A unit view has one component for each selection that it declares, in that order,
  on the terms registered for the name. -/
  components : ∀ v view u, (v, view, u) ∈ tree.units →
    List.Forall₂ (fun declared k => k.name = declared.1 ∧ ∃ e, r.entry? declared.1 = some e ∧
        k.type = e.type ∧ k.resolve = e.resolve ∧ Option.Rel Bind.Alike k.bind e.bind)
      u.selections.entries (r.componentsOf v)
  /-- The views registered for a name are those that declare it, each once and in the
  order of the walk. -/
  declaredIn : ∀ n e, r.entry? n = some e →
    e.name = n ∧ e.declaredIn = tree.declaringIds n ∧ e.declaredIn.Nodup
  /-- Seen from a view of the tree, a name can be looked up. -/
  lookup_total : ∀ v m, tree.get? v = some m → ∀ n, ∃ found, r.lookup tree v n = .ok found
  /-- What is found is the component of the name on the view that the name means. -/
  lookup_some : ∀ v m, tree.get? v = some m → ∀ n k,
    r.lookup tree v n = .ok (some k) ↔ k ∈ r.components ∧ k.name = n ∧ tree.Means v n k.unit
  /-- Nothing is found exactly if no view declares the name. -/
  lookup_none : ∀ v m, tree.get? v = some m → ∀ n,
    r.lookup tree v n = .ok none ↔ tree.declaring n = []

end Registry

/-- **The registry reflects the tree.**  Whenever the selections of a specification can be
parsed, components and entries match the declarations one by one, and from every view a
name leads to the first declaration in the nearest scope that has one. -/
theorem parseSelections_reflects {spec : ViewSpec} {tree : ViewTree} {config : SelectionConfig}
    {scales scales' : ScaleTable} {r : Registry} (htree : ViewTree.ofSpec spec = .ok tree)
    (h : (parseSelections tree config scales).result = .ok (scales', r)) : r.Reflects tree := by
  have hw := (ViewTree.ofSpec_wellFormed htree).1
  have hr := Registry.completed_of_parse h
  constructor
  case components =>
    intro v view u hu
    have hmade := hr.forall₂_componentsOf hw hu
    refine (List.forall₂_iff_zip.mpr ⟨hmade.length_eq, ?_⟩)
    intro declared k hzip
    have hk := List.forall₂_zip hmade hzip
    have hd : (⟨v, view, u, declared.1, declared.2⟩ : Declaration) ∈ tree.declarations :=
      ViewTree.mem_declarations.mpr ⟨hu, (List.of_mem_zip hzip).1⟩
    exact ⟨hk.name, hr.exists_entry hd hk⟩
  case declaredIn =>
    intro n e he
    obtain ⟨hname, hids⟩ := hr.declaredIn_of_entry? he
    exact ⟨hname, hids, hids ▸ ViewTree.declaringIds_nodup hw n⟩
  case lookup_total => exact fun v m hv n => ⟨_, hr.lookup_eq hw hv n⟩
  case lookup_some => exact fun v m hv n k => hr.lookup_eq_some_iff hw hv
  case lookup_none => exact fun v m hv n => hr.lookup_eq_none_iff hw hv

/-- A name declared beside a layer and again in it. -/
def ViewSpec.nameInLayer : ViewSpec :=
  .concatenated default
    [points [(.x, .numeric "A")] [("grid", .scaleBound [.x])],
      .layered default
        [points [(.x, .numeric "B")] [("pick", ⟨.single, .none⟩)],
          points [(.x, .numeric "C")] [("grid", .scaleBound [.x])]]]

/-- From within the layer, the name means the declaration there, which is not the first. -/
theorem parseSelections_reflects_nameInLayer :
    ∃ c, (Compilation.ofSpec .nameInLayer).result = .ok c ∧
      c.tree.declaringIds "grid" = [1, 4] ∧ c.tree.Means 3 "grid" 4 ∧ c.tree.Means 0 "grid" 1 ∧
      c.registry.lookup c.tree 3 "brush" = .ok none := by
  have hc : (Compilation.ofSpec .nameInLayer).result = .ok _ := rfl
  obtain ⟨htree, hparse⟩ := Compilation.ofSpec_steps hc
  have h := parseSelections_reflects htree hparse
  refine ⟨_, hc, rfl, ?_, ?_, (h.lookup_none 3 _ rfl "brush").mpr rfl⟩
  · exact ((h.lookup_some 3 _ rfl "grid" _).mp rfl).2.2
  · exact ((h.lookup_some 0 _ rfl "grid" _).mp rfl).2.2

end BrushLink
