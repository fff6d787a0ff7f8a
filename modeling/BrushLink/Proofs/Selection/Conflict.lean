import BrushLink.Proofs.Selection.Agreement
import BrushLink.Proofs.View.Walk

/-! # Conflicting declarations

A declaration is compared with one earlier declaration only, the first of its name.
Agreement is an equivalence, so this one comparison stands for all of them: as long as
no declaration was refused, all declarations of a name agree, and the registry is known
from their list (`Registry.Records`).  The next declaration extends the list
(`Registry.Records.declare`) or is refused because it disagrees with the first of its
name (`Registry.Records.declare_conflict`).

A list that is not consistent has a first place where it stops to be so
(`exists_first_conflict`).  Hence names are collected exactly if any two declarations of
one name agree, and otherwise it is the first declaration that disagrees with an
earlier one which is reported (`collect_exact`).  Once they are collected, every
component of a name has the terms of every other (`components_agree`).
-/
namespace BrushLink

/-- A list that is not related from left to right has a first element that is not related
to an earlier one. -/
theorem exists_first_conflict {α : Type} {R : α → α → Prop} {as : List α}
    (h : ¬ as.Pairwise R) :
    ∃ before a after, as = before ++ a :: after ∧ before.Pairwise R ∧ ∃ b ∈ before, ¬ R b a := by
  induction as using List.reverseRecOn with
  | nil => exact absurd List.Pairwise.nil h
  | append_singleton as a ih =>
    by_cases has : as.Pairwise R
    · refine ⟨as, a, [], rfl, has, ?_⟩
      by_contra hall
      push Not at hall
      refine h (List.pairwise_append.mpr ⟨has, List.pairwise_singleton R a, ?_⟩)
      intro b hb a' ha'
      rw [List.mem_singleton.mp ha']
      exact hall b hb
    · obtain ⟨before, c, after, rfl, hbefore, hc⟩ := ih has
      exact ⟨before, c, after ++ [a], by simp, hbefore, hc⟩

/-! ## What is recorded -/

/-- The entry of a name, from its declarations in order: that of the first, and the
views of the others. -/
def SelectionEntry.ofDeclarations : List Declaration → Option SelectionEntry
  | [] => none
  | d :: ds => some { ofDeclaration d with others := ds.map Declaration.unit }

namespace Registry
variable {tree : ViewTree} {config : SelectionConfig} {r : Registry} {ds : List Declaration}
  {d first : Declaration}

/-- The entries are those of the declarations of a list. -/
def Records (r : Registry) (ds : List Declaration) : Prop :=
  ∀ n, r.entries.get? n = SelectionEntry.ofDeclarations (ds.filter fun d => d.name = n)

theorem records_empty : empty.Records [] := fun _ => rfl

namespace Records

theorem insert {e : SelectionEntry} (hr : r.Records ds)
    (he : SelectionEntry.ofDeclarations ((ds.filter fun a => a.name = d.name) ++ [d]) = some e) :
    Records { r with entries := r.entries.insert d.name e } (ds ++ [d]) := by
  intro n
  rw [Table.get?_insert, List.filter_append]
  by_cases hn : n = d.name
  · subst hn
    rw [if_pos rfl, List.filter_cons_of_pos (by simp), List.filter_nil, he]
  · rw [if_neg hn, List.filter_cons_of_neg (by simpa using Ne.symm hn), List.filter_nil,
      List.append_nil]
    exact hr n

/-- A declaration that agrees with the first of its name, if there is one, is
recorded. -/
theorem declare (hr : r.Records ds)
    (hd : ∀ first, ds.find? (fun a => a.name = d.name) = some first →
      first.selection.Agrees d.selection) :
    ∃ r', Registry.declare tree r d = .ok r' ∧ r'.Records (ds ++ [d]) := by
  have hentry := hr d.name
  cases hs : ds.filter fun a => a.name = d.name with
  | nil =>
    rw [hs] at hentry
    rw [Registry.declare, hentry]
    exact ⟨_, rfl, hr.insert (by rw [hs]; rfl)⟩
  | cons first others =>
    rw [hs] at hentry
    have hfirst : ds.find? (fun a => a.name = d.name) = some first := by
      rw [← List.head?_filter, hs]
      rfl
    have hagrees := Declaration.agrees_ofDeclaration.mpr (hd first hfirst)
    rw [Registry.declare, hentry]
    refine ⟨_, if_pos hagrees, hr.insert ?_⟩
    rw [hs, List.cons_append, SelectionEntry.ofDeclarations, List.map_append]
    rfl

/-- A declaration that disagrees with the first of its name is refused. -/
theorem declare_conflict (hr : r.Records ds)
    (hfirst : ds.find? (fun a => a.name = d.name) = some first)
    (hview : tree.name first.unit = .ok first.view)
    (hd : ¬ first.selection.Agrees d.selection) :
    Registry.declare tree r d = .error (.conflictingSelection d.name first.view d.view) := by
  have hentry := hr d.name
  cases hs : ds.filter fun a => a.name = d.name with
  | nil =>
    rw [← List.head?_filter, hs] at hfirst
    cases hfirst
  | cons first' others =>
    rw [← List.head?_filter, hs] at hfirst
    obtain rfl := Option.some.inj hfirst
    rw [hs] at hentry
    rw [Registry.declare, hentry]
    refine (if_neg fun hagrees => hd (Declaration.agrees_ofDeclaration.mp hagrees)).trans ?_
    change (CompileError.ofTree (tree.name first'.unit) >>= fun first =>
      Except.error (CompileError.conflictingSelection d.name first d.view)) = _
    rw [hview]
    rfl

/-- Consistent declarations are all recorded. -/
theorem foldlM {more : List Declaration} (hr : r.Records ds)
    (h : (ds ++ more).Pairwise Declaration.Consistent) :
    ∃ r', more.foldlM (Registry.declare tree) r = .ok r' ∧ r'.Records (ds ++ more) := by
  induction more generalizing r ds with
  | nil => exact ⟨r, rfl, by rwa [List.append_nil]⟩
  | cons d more ih =>
    have hd : ∀ first, ds.find? (fun a => a.name = d.name) = some first →
        first.selection.Agrees d.selection := by
      intro first hfirst
      have hname : first.name = d.name := by simpa using List.find?_some hfirst
      exact (List.pairwise_append.mp h).2.2 first (List.mem_of_find?_eq_some hfirst) d
        List.mem_cons_self hname
    obtain ⟨r₁, hr₁, hrecords⟩ :
        ∃ r₁, Registry.declare tree r d = .ok r₁ ∧ r₁.Records (ds ++ [d]) := hr.declare hd
    obtain ⟨r', hr', hrest⟩ := ih hrecords (by simpa using h)
    refine ⟨r', ?_, by simpa using hrest⟩
    rw [List.foldlM_cons, hr₁]
    exact hr'

end Records

end Registry

/-! ## The views that declare a name -/

namespace ViewTree
variable {t t' : ViewTree} {n : String}

/-- The unit views that declare a name, in the order of the walk. -/
def declaring (t : ViewTree) (n : String) : List (ViewId × String × UnitView) :=
  t.units.filter fun u => u.2.2.selections.contains n

theorem mem_declarations {d : Declaration} :
    d ∈ t.declarations ↔ (d.unit, d.view, d.content) ∈ t.units ∧
      (d.name, d.selection) ∈ d.content.selections.entries := by
  constructor
  · intro h
    obtain ⟨⟨v, view, u⟩, hu, hd⟩ := List.mem_flatMap.mp h
    obtain ⟨⟨name, selection⟩, he, rfl⟩ := List.mem_map.mp hd
    exact ⟨hu, he⟩
  · rintro ⟨hu, he⟩
    exact List.mem_flatMap.mpr ⟨_, hu, List.mem_map.mpr ⟨_, he, rfl⟩⟩

/-- A view declares a name at most once, so the declarations of a name are one for each
view that declares it. -/
theorem map_declarations_named (t : ViewTree) (n : String) :
    (t.declarations.filter fun d => d.name = n).map (fun d => (d.unit, d.view, d.content)) =
      t.declaring n := by
  have hview : ∀ u : ViewId × String × UnitView,
      ((declarationsOn u.1 u.2.1 u.2.2).filter fun d => d.name = n).map
        (fun d => (d.unit, d.view, d.content)) =
          if u.2.2.selections.contains n then [u] else [] := by
    intro u
    rw [declarationsOn, List.filter_map, List.map_map]
    change (u.2.2.selections.entries.filter fun e => e.1 = n).map (fun _ => u) = _
    rw [Table.filter_entries_eq, Table.contains]
    cases u.2.2.selections.get? n <;> rfl
  rw [declarations, declaring]
  induction t.units with
  | nil => rfl
  | cons u us ih =>
    rw [List.flatMap_cons, List.filter_append, List.map_append, ih, hview, List.filter_cons]
    split
    · rfl
    · rfl

/-- The first declaration of a name is on the first view that declares it. -/
theorem head?_declaring (t : ViewTree) (n : String) :
    (t.declaring n).head? =
      (t.declarations.find? fun d => d.name = n).map fun d => (d.unit, d.view, d.content) := by
  rw [← map_declarations_named, List.head?_map, List.head?_filter]

/-- Trees of the same unit views have the same declarations, up to where they stand. -/
theorem exists_declaration_of_perm {d : Declaration}
    (h : (t.units.map fun u => u.2.2).Perm (t'.units.map fun u => u.2.2))
    (hd : d ∈ t.declarations) :
    ∃ d' ∈ t'.declarations, d'.name = d.name ∧ d'.selection = d.selection := by
  obtain ⟨hu, he⟩ := mem_declarations.mp hd
  have hmem : d.content ∈ t'.units.map fun u => u.2.2 :=
    h.subset (List.mem_map.mpr ⟨_, hu, rfl⟩)
  obtain ⟨⟨v, view, u⟩, hu', hcontent⟩ := List.mem_map.mp hmem
  obtain rfl : u = d.content := hcontent
  exact ⟨⟨v, view, d.content, d.name, d.selection⟩, mem_declarations.mpr ⟨hu', he⟩, rfl, rfl⟩

end ViewTree

/-! ## Collecting the names of a tree -/

namespace Registry
variable {tree : ViewTree} {config : SelectionConfig} {r : Registry}

/-- The declarations of a tree can stand side by side. -/
def Collectable (tree : ViewTree) (config : SelectionConfig) : Prop :=
  ∀ a ∈ tree.declarations, ∀ b ∈ tree.declarations, (a.filled config).Consistent (b.filled config)

theorem collect_of_collectable (h : Collectable tree config) :
    ∃ r, collect tree config = .ok r ∧ r.Records (tree.declarations.map (·.filled config)) := by
  have hpairwise : (tree.declarations.map (·.filled config)).Pairwise Declaration.Consistent :=
    List.pairwise_map.mpr (List.pairwise_of_forall_mem_list h)
  exact records_empty.foldlM hpairwise

/-- The first declaration that disagrees with an earlier one is reported together with
the first view that declares its name. -/
theorem collect_of_conflict {before after : List Declaration} {a d : Declaration}
    (hsplit : tree.declarations = before ++ d :: after)
    (hbefore : before.Pairwise fun a b => (a.filled config).Consistent (b.filled config))
    (ha : a ∈ before) (had : ¬ (a.filled config).Consistent (d.filled config)) :
    ∃ first, (tree.declaring d.name).head? = some first ∧
      collect tree config = .error (.conflictingSelection d.name first.2.1 d.view) := by
  have hpairwise : (before.map (·.filled config)).Pairwise Declaration.Consistent :=
    List.pairwise_map.mpr hbefore
  obtain ⟨f, hf, hdisagrees⟩ := Declaration.exists_first_of_not_consistent hpairwise
    (List.mem_map_of_mem ha) had
  obtain ⟨r, hr, hrecords⟩ : ∃ r, (before.map (·.filled config)).foldlM (declare tree) empty =
      .ok r ∧ r.Records (before.map (·.filled config)) := records_empty.foldlM hpairwise
  -- filling leaves name and place, so the first of the name is the same before and after
  have hfind : ∃ first, before.find? (fun b => b.name = d.name) = some first ∧
      first.filled config = f := by
    rw [List.find?_map] at hf
    exact Option.map_eq_some_iff.mp hf
  obtain ⟨first, hfirst, rfl⟩ := hfind
  have hmem : first ∈ tree.declarations := by
    rw [hsplit]
    exact List.mem_append_left _ (List.mem_of_find?_eq_some hfirst)
  have hview := ViewTree.name_of_mem_units (ViewTree.mem_declarations.mp hmem).1
  refine ⟨(first.unit, first.view, first.content), ?_, ?_⟩
  · rw [ViewTree.head?_declaring, hsplit, List.find?_append, hfirst]
    rfl
  · rw [collect, hsplit, List.map_append, List.foldlM_append, hr]
    change ((d :: after).map (·.filled config)).foldlM (Registry.declare tree) r = _
    rw [List.map_cons, List.foldlM_cons, hrecords.declare_conflict hf hview hdisagrees]
    rfl

theorem exists_conflict (h : ¬ Collectable tree config) :
    ∃ before d after, tree.declarations = before ++ d :: after ∧
      (before.Pairwise fun a b => (a.filled config).Consistent (b.filled config)) ∧
      ∃ a ∈ before, ¬ (a.filled config).Consistent (d.filled config) := by
  refine exists_first_conflict fun hpairwise => h ?_
  intro a ha b hb
  have hall := Declaration.pairwise_consistent_iff.mp (List.pairwise_map.mpr hpairwise)
  exact hall _ (List.mem_map_of_mem ha) _ (List.mem_map_of_mem hb)

theorem collect_ok_iff : (∃ r, collect tree config = .ok r) ↔ Collectable tree config := by
  constructor
  · rintro ⟨r, hr⟩
    by_contra h
    obtain ⟨before, d, after, hsplit, hbefore, a, ha, had⟩ := exists_conflict h
    obtain ⟨first, _, herror⟩ := collect_of_conflict hsplit hbefore ha had
    rw [hr] at herror
    cases herror
  · intro h
    obtain ⟨r, hr, _⟩ := collect_of_collectable h
    exact ⟨r, hr⟩

/-- What is recorded when names can be collected. -/
theorem collect_records (h : collect tree config = .ok r) :
    r.Records (tree.declarations.map (·.filled config)) := by
  obtain ⟨r', hr', hrecords⟩ := collect_of_collectable (collect_ok_iff.mp ⟨r, h⟩)
  rw [h] at hr'
  exact Except.ok.inj hr' ▸ hrecords

theorem Collectable.of_perm {tree' : ViewTree}
    (hperm : (tree.units.map fun u => u.2.2).Perm (tree'.units.map fun u => u.2.2))
    (h : Collectable tree config) : Collectable tree' config := by
  intro a ha b hb hname
  obtain ⟨a', ha', hna, hsa⟩ := ViewTree.exists_declaration_of_perm hperm.symm ha
  obtain ⟨b', hb', hnb, hsb⟩ := ViewTree.exists_declaration_of_perm hperm.symm hb
  have hagrees := h a' ha' b' hb' (hna.trans (Eq.trans hname hnb.symm))
  change (config.apply a'.selection).Agrees (config.apply b'.selection) at hagrees
  rwa [hsa, hsb] at hagrees

/-- **Conflicts are found exactly.**  The names of a tree can be collected exactly if any
two declarations of one name agree once their open settings are filled; so it does not
matter in which order the unit views come.  If they cannot be collected, the error names
the first declaration of the walk that disagrees with an earlier one of its name, by its
view, and the first view that declares the name. -/
theorem collect_exact (tree : ViewTree) (config : SelectionConfig) :
    ((∃ r, collect tree config = .ok r) ↔
      ∀ a ∈ tree.declarations, ∀ b ∈ tree.declarations, a.name = b.name →
        (config.apply a.selection).Agrees (config.apply b.selection)) ∧
    (∀ tree' : ViewTree, (tree.units.map fun u => u.2.2).Perm (tree'.units.map fun u => u.2.2) →
      ((∃ r, collect tree config = .ok r) ↔ ∃ r, collect tree' config = .ok r)) ∧
    ∀ e, collect tree config = .error e ↔
      ∃ before d after first, tree.declarations = before ++ d :: after ∧
        (before.Pairwise fun a b => a.name = b.name →
          (config.apply a.selection).Agrees (config.apply b.selection)) ∧
        (∃ a ∈ before, a.name = d.name ∧
          ¬ (config.apply a.selection).Agrees (config.apply d.selection)) ∧
        (tree.declaring d.name).head? = some first ∧
        e = .conflictingSelection d.name first.2.1 d.view := by
  refine ⟨collect_ok_iff, ?_, ?_⟩
  · intro tree' hperm
    rw [collect_ok_iff, collect_ok_iff]
    exact ⟨.of_perm hperm, .of_perm hperm.symm⟩
  · intro e
    constructor
    · intro he
      have hnot : ¬ Collectable tree config := by
        rw [← collect_ok_iff]
        rintro ⟨r, hr⟩
        rw [hr] at he
        cases he
      obtain ⟨before, d, after, hsplit, hbefore, a, ha, had⟩ := exists_conflict hnot
      obtain ⟨first, hfirst, herror⟩ := collect_of_conflict hsplit hbefore ha had
      rw [he] at herror
      exact ⟨before, d, after, first, hsplit, hbefore, ⟨a, ha, Classical.not_imp.mp had⟩, hfirst,
        Except.error.inj herror⟩
    · rintro ⟨before, d, after, first, hsplit, hbefore, ⟨a, ha, hname, hdisagrees⟩, hfirst, rfl⟩
      have had : ¬ (a.filled config).Consistent (d.filled config) :=
        fun hconsistent => hdisagrees (hconsistent hname)
      obtain ⟨first', hfirst', herror⟩ := collect_of_conflict hsplit hbefore ha had
      obtain rfl := Option.some.inj (hfirst.symm.trans hfirst')
      exact herror

end Registry

/-- Three views that declare a name; the last one does so with another type. -/
def ViewSpec.disagreeing : ViewSpec :=
  .concatenated default
    [points [(.x, .numeric "A")] [("pick", ⟨.single, .none⟩)],
      points [(.x, .numeric "B")] [("brush", ⟨.interval, .none⟩), ("pick", ⟨.single, .none⟩)],
      points [(.x, .numeric "C")] [("pick", ⟨.multi, .none⟩), ("brush", ⟨.single, .none⟩)]]

theorem Registry.collect_exact_disagreeing :
    ∃ tree, ViewTree.ofSpec .disagreeing = .ok tree ∧
      collect tree .none = .error (.conflictingSelection "pick" "concat_0" "concat_2") ∧
      ∃ a ∈ tree.declarations, ∃ b ∈ tree.declarations, a.name = b.name ∧
        ¬ (SelectionConfig.none.apply a.selection).Agrees
          (SelectionConfig.none.apply b.selection) := by
  obtain ⟨tree, htree, herror⟩ : ∃ tree, ViewTree.ofSpec .disagreeing = .ok tree ∧
      collect tree .none = .error (.conflictingSelection "pick" "concat_0" "concat_2") :=
    ⟨_, rfl, rfl⟩
  obtain ⟨before, d, after, _, hsplit, _, ⟨a, ha, hname, hdisagrees⟩, _⟩ :=
    ((collect_exact tree .none).2.2 _).mp herror
  refine ⟨tree, htree, herror, ?_⟩
  rw [hsplit]
  exact ⟨a, List.mem_append_left _ ha, d, List.mem_append_right _ List.mem_cons_self, hname,
    hdisagrees⟩

/-- What the component agrees on with the others of its name. -/
def Component.terms (k : Component) : SelectionType × Resolution × Option Bind :=
  (k.type, k.resolve, k.bind.map Bind.sorted)

/-- **Components of one name have the same terms.** -/
theorem components_agree {tree : ViewTree} {config : SelectionConfig} {scales scales' : ScaleTable}
    {registry : Registry} {k k' : Component}
    (h : (parseSelections tree config scales).result = .ok (scales', registry))
    (hk : k ∈ registry.components) (hk' : k' ∈ registry.components) (hname : k.name = k'.name) :
    k.terms = k'.terms := by
  obtain ⟨collected, hcollect, _⟩ := Diagnosed.bind_result_ok.mp h
  obtain ⟨d, hd, _, _, _, _, _, rfl⟩ := exists_declaration_of_component h hk
  obtain ⟨d', hd', _, _, _, _, _, rfl⟩ := exists_declaration_of_component h hk'
  have hagrees := Registry.collect_ok_iff.mp ⟨_, hcollect⟩ d hd d' hd' hname
  exact Declaration.agrees_iff.mp hagrees

end BrushLink
