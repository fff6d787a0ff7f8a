import BrushLink.Proofs.Signal.TopLevel

/-! # The outermost scope only grows at its ends

Nothing is asked here of the components that are merged: their names may coincide
with names of data signals, and a component may push the same field twice.  Still no
merge moves or drops what was there (`Extends`), although a composite that was made
earlier is replaced where it stands.  And at any time the composite of a selection
says what is recorded for the selection, over signals that are declared (`InSync`).

Both are shown for one component and carried along a run.  The signal that tracks the
pointer is put ahead of all others, but only of an empty list (`tracked_foldl_merge`),
so that this too adds at the end.

A merge changes something exactly if a name is missing that the components ask for
(`merge_eq_self_iff`).  No name is ever lost, so what a view has asked for once is there
whenever the view comes again (`merge_again`).
-/
namespace BrushLink

namespace Table
variable {κ α : Type} [DecidableEq κ]

/-- An entry that is put in unless its key is known leaves the others where they
are. -/
theorem entries_insertNew_prefix (t : Table κ α) (k : κ) (v : α) :
    t.entries <+: (t.insertNew k v).entries := by
  rw [insertNew]
  split
  · exact List.prefix_refl _
  · rename_i h
    rw [entries_insert_of_notMem (by rwa [contains_iff] at h)]
    exact List.prefix_append _ _

theorem mem_entries_insertNew {t : Table κ α} {k : κ} {v : α} {e : κ × α}
    (h : e ∈ (t.insertNew k v).entries) : e ∈ t.entries ∨ e = (k, v) := by
  rw [insertNew] at h
  split at h
  · exact Or.inl h
  · rename_i hk
    rw [entries_insert_of_notMem (by rwa [contains_iff] at hk)] at h
    rcases List.mem_append.mp h with h | h
    · exact Or.inl h
    · exact Or.inr (List.mem_singleton.mp h)

/-- A key that is put in is known or goes to the end. -/
theorem keys_insert_prefix (t : Table κ α) (k : κ) (v : α) : t.keys <+: (t.insert k v).keys := by
  rw [keys_insert]
  split
  · exact List.prefix_refl _
  · exact List.prefix_append _ _

end Table

namespace TopLevel
variable {t t' t'' : TopLevel} {k : Component}

/-! ## Growing at the ends -/

/-- A scope arises from another by additions at the ends: of the signals, of the
selections that have a composite, and of the fields of each of them. -/
structure Extends (t t' : TopLevel) : Prop where
  names : t.names <+: t'.names
  selections : t.composites.keys <+: t'.composites.keys
  entries : ∀ s es, t.composites.get? s = some es →
    ∃ es', t'.composites.get? s = some es' ∧ es.entries <+: es'.entries

namespace Extends

theorem refl (t : TopLevel) : t.Extends t where
  names := List.prefix_refl _
  selections := List.prefix_refl _
  entries := fun _ es hes => ⟨es, hes, List.prefix_refl _⟩

theorem trans (h : t.Extends t') (h' : t'.Extends t'') : t.Extends t'' where
  names := h.names.trans h'.names
  selections := h.selections.trans h'.selections
  entries := by
    intro s es hes
    obtain ⟨es', hes', hpre⟩ := h.entries s es hes
    obtain ⟨es'', hes'', hpre'⟩ := h'.entries s es' hes'
    exact ⟨es'', hes'', hpre.trans hpre'⟩

end Extends

theorem entries_foldl_insertNew_prefix (s : String) (fs : List Field) (es : Table String String) :
    es.entries <+: (fs.foldl (fun es f => es.insertNew f.name (dataSignalName s f)) es).entries := by
  induction fs generalizing es with
  | nil => exact List.prefix_refl _
  | cons f fs ih => exact (es.entries_insertNew_prefix _ _).trans (ih _)

theorem mem_entries_foldl_insertNew {s : String} {fs : List Field} {es : Table String String}
    {e : String × String}
    (h : e ∈ (fs.foldl (fun es f => es.insertNew f.name (dataSignalName s f)) es).entries) :
    e ∈ es.entries ∨ ∃ f ∈ fs, e.2 = dataSignalName s f := by
  induction fs generalizing es with
  | nil => exact Or.inl h
  | cons f fs ih =>
    rcases ih h with h | ⟨g, hg, he⟩
    · rcases Table.mem_entries_insertNew h with h | rfl
      · exact Or.inl h
      · exact Or.inr ⟨f, List.mem_cons_self, rfl⟩
    · exact Or.inr ⟨g, List.mem_cons_of_mem _ hg, he⟩

theorem extends_mergeComponent (t : TopLevel) (k : Component) : t.Extends (t.mergeComponent k) := by
  by_cases hi : t.introduced k = []
  · rw [mergeComponent_of_nil hi]
    exact .refl t
  · constructor
    · rw [names_mergeComponent hi]
      split
      · exact List.prefix_append _ _
      · rw [List.append_assoc]
        exact List.prefix_append _ _
    · rw [composites_mergeComponent hi]
      exact t.composites.keys_insert_prefix _ _
    · intro s es hes
      rw [composites_mergeComponent hi]
      simp only [Table.get?_insert]
      by_cases hs : s = k.name
      · subst hs
        refine ⟨t.mergedEntries k, if_pos rfl, ?_⟩
        rw [mergedEntries, hes]
        exact entries_foldl_insertNew_prefix k.name (t.introduced k) es
      · exact ⟨es, by rw [if_neg hs, hes], List.prefix_refl _⟩

theorem extends_run (ks : List Component) (t : TopLevel) :
    t.Extends (ks.foldl mergeComponent t) := by
  induction ks generalizing t with
  | nil => exact .refl t
  | cons k ks ih => exact (extends_mergeComponent t k).trans (ih _)

/-! ## Composites that say what is recorded -/

/-- The composites of a scope are those that are recorded for its selections. -/
structure InSync (t : TopLevel) : Prop where
  /-- Nothing is pushed out of the scope. -/
  own : ∀ r ∈ t.signals, r.isPush = false
  /-- Under the name of a selection stands the literal over its entries. -/
  composite : ∀ s es, t.composites.get? s = some es →
    ∃ r, t.get? s = some r ∧ r.update? = some (compositeUpdate es.entries)
  /-- The entries name signals of the scope. -/
  declared : ∀ s es, t.composites.get? s = some es → ∀ e ∈ es.entries, e.2 ∈ t.names

theorem inSync_empty : empty.InSync where
  own := fun _ hr => nomatch hr
  composite := fun _ _ hes => nomatch hes
  declared := fun _ _ hes => nomatch hes

theorem find?_upsertSignal (r : Signal) (rs : List Signal) (n : String) :
    (upsertSignal r rs).find? (fun q => q.name = n) =
      if r.name = n then some r else rs.find? fun q => q.name = n := by
  induction rs with
  | nil => by_cases hn : r.name = n <;> simp [upsertSignal, hn]
  | cons q rs ih =>
    by_cases hq : q.name = r.name
    · by_cases hn : r.name = n
      · simp [upsertSignal, hq, hn]
      · simp [upsertSignal, hq, hn]
    · rw [upsertSignal, if_neg hq]
      by_cases hqn : q.name = n
      · have hn : ¬ r.name = n := fun hr => hq (hqn.trans hr.symm)
        simp [hqn, hn]
      · rw [List.find?_cons_of_neg (by simpa using hqn), ih,
          List.find?_cons_of_neg (by simpa using hqn)]

theorem eq_or_mem_of_mem_upsertSignal {r q : Signal} {rs : List Signal}
    (h : q ∈ upsertSignal r rs) : q = r ∨ q ∈ rs := by
  induction rs with
  | nil => exact Or.inl (List.mem_singleton.mp h)
  | cons p rs ih =>
    rw [upsertSignal] at h
    split at h
    · rcases List.mem_cons.mp h with h | h
      · exact Or.inl h
      · exact Or.inr (List.mem_cons_of_mem _ h)
    · rcases List.mem_cons.mp h with rfl | h
      · exact Or.inr List.mem_cons_self
      · exact (ih h).imp id (List.mem_cons_of_mem _)

/-- After a component its name finds the new composite, and what another name found
it finds still. -/
theorem get?_mergeComponent (h : t.introduced k ≠ []) (n : String) :
    (t.mergeComponent k).get? n =
      if k.name = n then some (.following k.name (compositeUpdate (t.mergedEntries k).entries))
      else (t.get? n).or
        (((t.introduced k).map fun f => Signal.bare (dataSignalName k.name f)).find?
          fun q => q.name = n) := by
  rw [mergeComponent_of_ne_nil h, get?, get?, List.find?_append, find?_upsertSignal]
  by_cases hn : k.name = n
  · rw [if_pos hn, if_pos (show (Signal.following k.name _).name = n from hn)]
    rfl
  · rw [if_neg hn, if_neg (show ¬ (Signal.following k.name _).name = n from hn)]

namespace InSync

theorem mergeComponent (h : t.InSync) (k : Component) : (t.mergeComponent k).InSync := by
  by_cases hi : t.introduced k = []
  · rwa [mergeComponent_of_nil hi]
  · have hnames : ∀ n ∈ t.names, n ∈ (t.mergeComponent k).names :=
      fun n hn => names_subset_mergeComponent hn
    constructor
    · intro r hr
      rw [mergeComponent_of_ne_nil hi] at hr
      rcases List.mem_append.mp hr with hr | hr
      · rcases eq_or_mem_of_mem_upsertSignal hr with rfl | hr
        · rfl
        · exact h.own r hr
      · obtain ⟨f, _, rfl⟩ := List.mem_map.mp hr
        rfl
    · intro s es hes
      rw [composites_mergeComponent hi, Table.get?_insert] at hes
      rw [get?_mergeComponent hi]
      by_cases hs : k.name = s
      · rw [if_pos hs.symm] at hes
        obtain rfl := Option.some.inj hes
        exact ⟨_, if_pos hs, rfl⟩
      · rw [if_neg (Ne.symm hs)] at hes
        obtain ⟨r, hr, hupdate⟩ := h.composite s es hes
        exact ⟨r, by rw [if_neg hs, hr, Option.some_or], hupdate⟩
    · intro s es hes e he
      rw [composites_mergeComponent hi, Table.get?_insert] at hes
      by_cases hs : s = k.name
      · rw [if_pos hs] at hes
        obtain rfl := Option.some.inj hes
        rcases mem_entries_foldl_insertNew he with he | ⟨f, hf, hname⟩
        · -- an entry that was recorded before
          cases hold : t.composites.get? k.name with
          | none =>
            rw [hold] at he
            cases he
          | some old =>
            rw [hold] at he
            exact hnames _ (h.declared _ old hold e he)
        · rw [hname]
          exact pushed_mem_mergeComponent (mem_introduced.mp hf).1
      · rw [if_neg hs] at hes
        exact hnames _ (h.declared s es hes e he)

theorem run (h : t.InSync) (ks : List Component) : (ks.foldl TopLevel.mergeComponent t).InSync := by
  induction ks generalizing t with
  | nil => exact h
  | cons k ks ih => exact ih (h.mergeComponent k)

theorem track (h : t.InSync) : t.track.InSync := by
  rw [TopLevel.track]
  split
  · exact h
  · rename_i hnot
    rw [contains_iff] at hnot
    constructor
    · intro r hr
      rcases List.mem_cons.mp hr with rfl | hr
      · rfl
      · exact h.own r hr
    · intro s es hes
      obtain ⟨r, hr, hupdate⟩ := h.composite s es hes
      -- the name of a selection with a composite is taken, that of the tracker is not
      have hname : r.name = s := by simpa using List.find?_some hr
      have hne : ¬ tracker.name = s := by
        rintro rfl
        exact hnot (List.mem_map.mpr ⟨r, List.mem_of_find?_eq_some hr, hname⟩)
      refine ⟨r, ?_, hupdate⟩
      rw [get?, List.find?_cons_of_neg (by simpa using hne)]
      exact hr
    · intro s es hes e he
      exact List.mem_cons_of_mem _ (h.declared s es hes e he)

theorem merge (h : t.InSync) (ks : List Component) : (t.merge ks).InSync := by
  rw [TopLevel.merge]
  split
  · exact h
  · exact h.track.run _

theorem foldl_merge (h : t.InSync) (views : List (List Component)) :
    (views.foldl TopLevel.merge t).InSync := by
  induction views generalizing t with
  | nil => exact h
  | cons ks views ih => exact ih (h.merge ks)

end InSync

/-! ## Merging views -/

/-- Views leave either nothing or a scope where the pointer is tracked. -/
theorem tracked_foldl_merge (views : List (List Component)) :
    (views.foldl merge empty).signals = [] ∨
      (views.foldl merge empty).contains tracker.name = true := by
  by_cases hflat : views.flatten = []
  · left
    rw [foldl_merge_of_nil hflat]
    rfl
  · right
    rw [foldl_merge_eq hflat, contains_iff]
    exact names_subset_run _ (contains_iff.mp (contains_track empty))

theorem extends_track (h : t.signals = [] ∨ t.contains tracker.name = true) :
    t.Extends t.track := by
  rcases h with hnil | hcontains
  · rw [track]
    split
    · exact .refl t
    · refine ⟨?_, List.prefix_refl _, fun s es hes => ⟨es, hes, List.prefix_refl _⟩⟩
      rw [names, hnil]
      exact List.nil_prefix
  · rw [track_of_contains hcontains]
    exact .refl t

theorem extends_merge (h : t.signals = [] ∨ t.contains tracker.name = true)
    (ks : List Component) : t.Extends (t.merge ks) := by
  rw [merge]
  split
  · exact .refl t
  · exact (extends_track h).trans (extends_run _ _)

/-- **The outermost scope only extends, and its composites stay true.**  Whatever
components were merged view by view, one more view adds names after those that were
there, selections after those that had a composite, and fields after those of each
selection; and under the name of every selection with recorded fields stands the
composite over exactly these fields, each of whose signals is declared in the scope. -/
theorem foldl_merge_extends (views : List (List Component)) (ks : List Component) :
    (views.foldl merge empty).Extends ((views.foldl merge empty).merge ks) ∧
      (views.foldl merge empty).InSync :=
  ⟨extends_merge (tracked_foldl_merge views) ks, inSync_empty.foldl_merge views⟩

/-! ## A view that comes again -/

/-- The scope has what components ask for: if there are any the pointer is tracked, and
every data signal that they keep in the outermost scope has a signal of its name. -/
structure Satisfies (t : TopLevel) (ks : List Component) : Prop where
  tracked : ks ≠ [] → tracker.name ∈ t.names
  pushed : ∀ k ∈ ks, ∀ f ∈ k.pushedFields, dataSignalName k.name f ∈ t.names

theorem mergeComponent_eq_self (h : ∀ f ∈ k.pushedFields, dataSignalName k.name f ∈ t.names) :
    t.mergeComponent k = t :=
  mergeComponent_of_nil (introduced_eq_nil_iff.mpr h)

theorem run_eq_self {ks : List Component}
    (h : ∀ k ∈ ks, ∀ f ∈ k.pushedFields, dataSignalName k.name f ∈ t.names) :
    ks.foldl mergeComponent t = t := by
  induction ks with
  | nil => rfl
  | cons k ks ih =>
    rw [List.foldl_cons, mergeComponent_eq_self (h k List.mem_cons_self)]
    exact ih fun k' hk' => h k' (List.mem_cons_of_mem k hk')

theorem Satisfies.merge_eq {ks : List Component} (h : t.Satisfies ks) : t.merge ks = t := by
  rw [merge]
  split
  · rfl
  · rename_i hks
    have htracked := h.tracked fun he => hks (List.isEmpty_iff.mpr he)
    rw [track_of_contains (contains_iff.mpr htracked)]
    exact run_eq_self fun k hk => h.pushed k (List.mem_filter.mp hk).1

/-- What components ask for is there once they are merged, whether it was made for them
or found. -/
theorem satisfies_merge (t : TopLevel) (ks : List Component) : (t.merge ks).Satisfies ks := by
  cases ks with
  | nil => exact ⟨fun h => absurd rfl h, fun k hk => absurd hk List.not_mem_nil⟩
  | cons k ks =>
    rw [merge, List.isEmpty_cons, if_neg Bool.false_ne_true]
    constructor
    · intro _
      exact names_subset_run _ (contains_iff.mp (contains_track t))
    · intro k' hk' f hf
      refine pushed_mem_run (List.mem_filter.mpr ⟨hk', ?_⟩) hf
      -- a component that lives elsewhere keeps no field in the outermost scope
      obtain ⟨p, hp, _⟩ := List.mem_map.mp hf
      exact (Bool.and_eq_true_iff.mp (List.mem_filter.mp hp).2).1

theorem merge_eq_self_iff {ks : List Component} : t.merge ks = t ↔ t.Satisfies ks := by
  constructor
  · intro h
    rw [← h]
    exact satisfies_merge t ks
  · exact Satisfies.merge_eq

theorem Satisfies.foldl_merge {ks : List Component} (h : t.Satisfies ks)
    (views : List (List Component)) : (views.foldl merge t).Satisfies ks := by
  induction views generalizing t with
  | nil => exact h
  | cons other views ih =>
    refine ih ⟨fun hks => ?_, fun k hk f hf => ?_⟩
    · exact names_subset_merge other (h.tracked hks)
    · exact names_subset_merge other (h.pushed k hk f hf)

/-- **A view that comes again changes nothing.**  Whatever scope the components of a view
were merged into, and whatever views came after them, all that they ask for is there, and
merging them once more leaves the scope as it is. -/
theorem merge_again (t : TopLevel) (ks : List Component) (views : List (List Component)) :
    (views.foldl merge (t.merge ks)).Satisfies ks ∧
      (views.foldl merge (t.merge ks)).merge ks = views.foldl merge (t.merge ks) := by
  have hsatisfies := (satisfies_merge t ks).foldl_merge views
  exact ⟨hsatisfies, merge_eq_self_iff.mpr hsatisfies⟩

end TopLevel

end BrushLink
