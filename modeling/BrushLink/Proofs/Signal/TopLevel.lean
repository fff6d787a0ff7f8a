import BrushLink.Proofs.Signal.Expression
import BrushLink.Proofs.Table
import BrushLink.Signal.TopLevel
import Mathlib.Data.List.Nodup

/-! # Merging into the outermost scope

The outermost scope is one run over the components whose state lives there, from
the signal that tracks the pointer (`foldl_merge_eq`).  A component that comes along
introduces those of its fields whose data signal has no signal of that name before
it.  `Sound` says what the scope is at any time: signals of different names, each
the tracker, a bare data signal, or the composite of a selection over the fields
that were introduced for it.  It is kept by one component (`Sound.mergeComponent`)
and hence by a run (`Sound.run`).

Names decide what is new, and a name may have been taken by another selection:
the composite of `a_b`, or the data signal of another field, may stand where the
data signal of field `b` of selection `a` would be.  `preempted` asks whether that
was so when the selection first came with the field, and the composite has exactly
the other fields (`admitted_eq_filter`).
-/
namespace BrushLink

/-- The fields whose state the component keeps in the outermost scope, if it lives
there. -/
def Component.pushedFields (k : Component) : List Field :=
  (k.projections.filter k.pushes).map Projection.field

/-! ## Joined names -/

/-- Two texts with an underscore between them. -/
def joined (s t : String) : String := s ++ "_" ++ t

theorem toList_joined (s t : String) : (joined s t).toList = s.toList ++ '_' :: t.toList := by
  rw [joined, String.toList_append, String.toList_append, List.append_assoc]
  rfl

theorem joined_inj {s t u : String} : joined s t = joined s u ↔ t = u := by
  rw [← String.toList_inj, ← String.toList_inj, toList_joined, toList_joined,
    List.append_cancel_left_eq, List.cons.injEq, and_iff_right rfl]

theorem joined_injective (s : String) : Function.Injective (joined s) := fun _ _ => joined_inj.mp

theorem joined_ne (s t : String) : joined s t ≠ s := by
  intro h
  have hlength := congrArg (fun s : String => s.toList.length) h
  simp only [toList_joined, List.length_append, List.length_cons] at hlength
  omega

theorem joined_assoc (s t u : String) : joined (joined s t) u = joined s (joined t u) := by
  simp only [← String.toList_inj, toList_joined, List.append_assoc, List.cons_append]

/-- Names of different beginnings are the same only if the one beginning continues the
other. -/
theorem joined_eq_joined_iff {s s' t t' : String} (h : s ≠ s') :
    joined s t = joined s' t' ↔
      (∃ r, s' = joined s r ∧ t = joined r t') ∨ ∃ r, s = joined s' r ∧ t' = joined r t := by
  -- the longer beginning, compared with the shorter and its underscore
  have hcontinue : ∀ {s s' t t' : String} {cs : List Char}, s ≠ s' →
      s'.toList = s.toList ++ cs → '_' :: t.toList = cs ++ '_' :: t'.toList →
      ∃ r, s' = joined s r ∧ t = joined r t' := by
    intro s s' t t' cs hne hs ht
    cases cs with
    | nil =>
      rw [List.append_nil] at hs
      exact absurd (String.toList_inj.mp hs).symm hne
    | cons c cs =>
      obtain ⟨rfl, htail⟩ := List.cons.inj ht
      refine ⟨String.ofList cs, ?_, ?_⟩
      · rw [← String.toList_inj, toList_joined, String.toList_ofList, hs]
      · rw [← String.toList_inj, toList_joined, String.toList_ofList]
        exact htail
  constructor
  · intro he
    rw [← String.toList_inj, toList_joined, toList_joined, List.append_eq_append_iff] at he
    rcases he with ⟨cs, hs, ht⟩ | ⟨cs, hs, ht⟩
    · exact Or.inl (hcontinue h hs ht)
    · exact Or.inr (hcontinue h.symm hs ht)
  · rintro (⟨r, rfl, rfl⟩ | ⟨r, rfl, rfl⟩)
    · exact (joined_assoc s r t').symm
    · exact joined_assoc s' r t

theorem dataSignalName_inj {s : String} {f g : Field}
    (h : dataSignalName s f = dataSignalName s g) : f = g :=
  Field.eq_of_name (joined_inj.mp h)

theorem dataSignalName_ne (s : String) (f : Field) : dataSignalName s f ≠ s := joined_ne s f.name

namespace TopLevel
variable {t : TopLevel} {k : Component} {s : String} {f : Field}

/-! ## Signals and their names -/

/-- The names of the signals, in order. -/
def names (t : TopLevel) : List String := t.signals.map Signal.name

theorem contains_iff {n : String} : t.contains n = true ↔ n ∈ t.names := by
  simp [contains, names]

theorem names_upsertSignal (r : Signal) (rs : List Signal) :
    (upsertSignal r rs).map Signal.name =
      if r.name ∈ rs.map Signal.name then rs.map Signal.name
      else rs.map Signal.name ++ [r.name] := by
  induction rs with
  | nil => rfl
  | cons q rs ih =>
    by_cases hq : q.name = r.name
    · simp [upsertSignal, hq]
    · rw [upsertSignal, if_neg hq, List.map_cons, ih]
      by_cases hr : r.name ∈ rs.map Signal.name
      · rw [if_pos hr, List.map_cons, if_pos (List.mem_cons_of_mem _ hr)]
      · rw [if_neg hr, List.map_cons, if_neg (by simpa [Ne.symm hq] using hr), List.cons_append]

/-- Where names differ, only the signal of the same name gives way. -/
theorem mem_upsertSignal {r q : Signal} {rs : List Signal} (hd : (rs.map Signal.name).Nodup) :
    q ∈ upsertSignal r rs ↔ q = r ∨ (q ∈ rs ∧ q.name ≠ r.name) := by
  induction rs with
  | nil => simp [upsertSignal]
  | cons p rs ih =>
    rw [List.map_cons, List.nodup_cons] at hd
    by_cases hp : p.name = r.name
    · have hrest : ∀ q ∈ rs, q.name ≠ r.name :=
        fun q hq he => hd.1 (List.mem_map.mpr ⟨q, hq, he.trans hp.symm⟩)
      rw [upsertSignal, if_pos hp, List.mem_cons, List.mem_cons]
      constructor
      · rintro (rfl | hq)
        · exact Or.inl rfl
        · exact Or.inr ⟨Or.inr hq, hrest q hq⟩
      · rintro (rfl | ⟨rfl | hq, hne⟩)
        · exact Or.inl rfl
        · exact absurd hp hne
        · exact Or.inr hq
    · rw [upsertSignal, if_neg hp, List.mem_cons, ih hd.2, List.mem_cons]
      constructor
      · rintro (rfl | rfl | ⟨hq, hne⟩)
        · exact Or.inr ⟨Or.inl rfl, hp⟩
        · exact Or.inl rfl
        · exact Or.inr ⟨Or.inr hq, hne⟩
      · rintro (rfl | ⟨rfl | hq, hne⟩)
        · exact Or.inr (Or.inl rfl)
        · exact Or.inl rfl
        · exact Or.inr (Or.inr ⟨hq, hne⟩)

/-! ## One component -/

theorem mem_introduced :
    f ∈ t.introduced k ↔ f ∈ k.pushedFields ∧ dataSignalName k.name f ∉ t.names := by
  rw [introduced, List.mem_filter, Bool.not_eq_true', ← Bool.not_eq_true, contains_iff]
  rfl

/-- Nothing is new of a component whose data signals all have a signal of their name. -/
theorem introduced_eq_nil_iff :
    t.introduced k = [] ↔ ∀ f ∈ k.pushedFields, dataSignalName k.name f ∈ t.names := by
  rw [List.eq_nil_iff_forall_not_mem]
  refine forall_congr' fun f => ?_
  rw [mem_introduced, not_and, Decidable.not_not]

theorem mergeComponent_of_nil (h : t.introduced k = []) : t.mergeComponent k = t := by
  rw [mergeComponent, h]

/-- The entries of a component's composite once the component is merged. -/
def mergedEntries (t : TopLevel) (k : Component) : Table String String :=
  (t.introduced k).foldl (fun es f => es.insertNew f.name (dataSignalName k.name f))
    ((t.composites.get? k.name).getD ∅)

theorem mergeComponent_of_ne_nil (h : t.introduced k ≠ []) :
    t.mergeComponent k =
      ⟨upsertSignal (.following k.name (compositeUpdate (t.mergedEntries k).entries)) t.signals ++
          (t.introduced k).map (fun f => .bare (dataSignalName k.name f)),
        t.composites.insert k.name (t.mergedEntries k)⟩ := by
  rw [mergeComponent]
  split
  · exact absurd ‹_› h
  · rfl

theorem composites_mergeComponent (h : t.introduced k ≠ []) :
    (t.mergeComponent k).composites = t.composites.insert k.name (t.mergedEntries k) := by
  rw [mergeComponent_of_ne_nil h]

/-- Where names differ, a component makes its composite anew, leaves signals of other names
and adds those of the introduced fields. -/
theorem mem_signals_mergeComponent {r : Signal} (hd : t.names.Nodup) (h : t.introduced k ≠ []) :
    r ∈ (t.mergeComponent k).signals ↔
      r = .following k.name (compositeUpdate (t.mergedEntries k).entries) ∨
        (r ∈ t.signals ∧ r.name ≠ k.name) ∨
        ∃ f ∈ t.introduced k, Signal.bare (dataSignalName k.name f) = r := by
  rw [mergeComponent_of_ne_nil h, List.mem_append, mem_upsertSignal hd, List.mem_map, or_assoc]
  rfl

theorem names_mergeComponent (h : t.introduced k ≠ []) :
    (t.mergeComponent k).names =
      (if k.name ∈ t.names then t.names else t.names ++ [k.name]) ++
        (t.introduced k).map (dataSignalName k.name) := by
  rw [mergeComponent_of_ne_nil h, names, List.map_append, names_upsertSignal, List.map_map]
  rfl

/-- Names that are there stay. -/
theorem names_subset_mergeComponent {n : String} (hn : n ∈ t.names) :
    n ∈ (t.mergeComponent k).names := by
  by_cases h : t.introduced k = []
  · rwa [mergeComponent_of_nil h]
  · rw [names_mergeComponent h]
    refine List.mem_append_left _ ?_
    split
    · exact hn
    · exact List.mem_append_left _ hn

/-- After a component all its data signals have a signal of their name. -/
theorem pushed_mem_mergeComponent (hf : f ∈ k.pushedFields) :
    dataSignalName k.name f ∈ (t.mergeComponent k).names := by
  by_cases hn : dataSignalName k.name f ∈ t.names
  · exact names_subset_mergeComponent hn
  · have hi : f ∈ t.introduced k := mem_introduced.mpr ⟨hf, hn⟩
    rw [names_mergeComponent (List.ne_nil_of_mem hi)]
    exact List.mem_append_right _ (List.mem_map.mpr ⟨f, hi, rfl⟩)

/-- What is added has new names. -/
theorem names_nodup_mergeComponent (hd : t.names.Nodup) (hk : k.pushedFields.Nodup) :
    (t.mergeComponent k).names.Nodup := by
  by_cases hi : t.introduced k = []
  · rwa [mergeComponent_of_nil hi]
  · have hdata : ((t.introduced k).map (dataSignalName k.name)).Nodup :=
      (hk.filter _).map_on fun f _ g _ he => dataSignalName_inj he
    rw [names_mergeComponent hi]
    refine List.nodup_append.mpr ⟨?_, hdata, ?_⟩
    · split
      · exact hd
      · rename_i hname
        refine List.nodup_append.mpr ⟨hd, List.nodup_singleton _, ?_⟩
        rintro n hn m hm rfl
        exact hname (List.mem_singleton.mp hm ▸ hn)
    · rintro n hn m hm rfl
      obtain ⟨f, hf, rfl⟩ := List.mem_map.mp hm
      have hfresh := (mem_introduced.mp hf).2
      split at hn
      · exact hfresh hn
      · rcases List.mem_append.mp hn with hn | hn
        · exact hfresh hn
        · exact dataSignalName_ne _ _ (List.mem_singleton.mp hn)

theorem names_subset_run {n : String} (ks : List Component) (hn : n ∈ t.names) :
    n ∈ (ks.foldl mergeComponent t).names := by
  induction ks generalizing t with
  | nil => exact hn
  | cons k ks ih => exact ih (names_subset_mergeComponent hn)

theorem pushed_mem_run {ks : List Component} (hk : k ∈ ks) (hf : f ∈ k.pushedFields) :
    dataSignalName k.name f ∈ (ks.foldl mergeComponent t).names := by
  induction ks generalizing t with
  | nil => cases hk
  | cons k' ks ih =>
    rcases List.mem_cons.mp hk with rfl | hk
    · exact names_subset_run ks (pushed_mem_mergeComponent hf)
    · exact ih hk

/-! ## What the scope is at any time -/

/-- The scope after fields were introduced for selections, `kept s` for the
selection `s`. -/
structure Sound (t : TopLevel) (kept : String → List Field) : Prop where
  names_nodup : t.names.Nodup
  composite_mem : ∀ s, kept s ≠ [] → Signal.composite s (kept s) ∈ t.signals
  entries_eq : ∀ s, ((t.composites.get? s).getD ∅).entries = compositeEntries s (kept s)
  cases_mem : ∀ r ∈ t.signals, r = tracker ∨ (∃ n, r = .bare n) ∨
    ∃ s, kept s ≠ [] ∧ r = Signal.composite s (kept s)
  declared : ∀ s, ∀ f ∈ kept s, dataSignalName s f ∈ t.names

/-- The scope with nothing but the tracker. -/
def started : TopLevel := empty.track

theorem sound_empty : empty.Sound fun _ => [] where
  names_nodup := List.nodup_nil
  composite_mem := fun _ h => absurd rfl h
  entries_eq := fun _ => rfl
  cases_mem := fun _ hr => nomatch hr
  declared := fun _ _ h => nomatch h

theorem sound_started : started.Sound fun _ => [] where
  names_nodup := by decide
  composite_mem := fun _ h => absurd rfl h
  entries_eq := fun _ => rfl
  cases_mem := fun r hr => Or.inl (List.mem_singleton.mp hr)
  declared := fun _ _ h => nomatch h

/-- New fields go to the end of a composite's entries. -/
theorem entries_foldl_insertNew {es : Table String String} {old new : List Field}
    (he : es.entries = compositeEntries s old) (hd : (old ++ new).Nodup) :
    (new.foldl (fun es f => es.insertNew f.name (dataSignalName s f)) es).entries =
      compositeEntries s (old ++ new) := by
  induction new generalizing es old with
  | nil => rw [List.foldl_nil, he, List.append_nil]
  | cons f new ih =>
    have hkey : f.name ∉ es.keys := by
      intro hmem
      rw [Table.keys, he, compositeEntries, List.map_map] at hmem
      obtain ⟨g, hg, hname⟩ := List.mem_map.mp hmem
      obtain rfl : g = f := Field.eq_of_name hname
      exact (List.nodup_append.mp hd).2.2 g hg g List.mem_cons_self rfl
    have hnew : (es.insertNew f.name (dataSignalName s f)).entries =
        compositeEntries s (old ++ [f]) := by
      rw [Table.insertNew, if_neg (by rwa [Table.contains_iff]),
        Table.entries_insert_of_notMem hkey, he]
      simp [compositeEntries]
    rw [List.foldl_cons, ih hnew (by simpa using hd), List.append_assoc, List.singleton_append]

namespace Sound
variable {kept : String → List Field}

theorem kept_nodup (h : t.Sound kept) (s : String) : (kept s).Nodup := by
  have hd := ((t.composites.get? s).getD ∅).distinct
  rw [h.entries_eq, compositeEntries, List.map_map] at hd
  exact List.Nodup.of_map _ hd

/-- The entries of the component's composite are those of the fields that were kept, and
then those of the fields that it introduces. -/
theorem entries_mergedEntries (h : t.Sound kept) (hk : k.pushedFields.Nodup) :
    (t.mergedEntries k).entries =
      compositeEntries k.name (kept k.name ++ t.introduced k) := by
  refine entries_foldl_insertNew (h.entries_eq _) ?_
  refine List.nodup_append.mpr ⟨h.kept_nodup _, hk.filter _, ?_⟩
  -- a field kept before has its data signal, an introduced one has not
  rintro f hf g hg rfl
  exact (mem_introduced.mp hg).2 (h.declared _ f hf)

/-- A component adds the fields that it introduces to its selection's. -/
theorem mergeComponent (h : t.Sound kept) (hk : k.pushedFields.Nodup) :
    (t.mergeComponent k).Sound fun s => kept s ++ if k.name = s then t.introduced k else [] := by
  by_cases hi : t.introduced k = []
  · rw [mergeComponent_of_nil hi]
    simpa [hi] using h
  · have hentries := h.entries_mergedEntries hk
    have hmem : ∀ r, r ∈ (t.mergeComponent k).signals ↔
        r = Signal.composite k.name (kept k.name ++ t.introduced k) ∨
          (r ∈ t.signals ∧ r.name ≠ k.name) ∨
          ∃ f ∈ t.introduced k, Signal.bare (dataSignalName k.name f) = r := by
      intro r
      rw [mem_signals_mergeComponent h.names_nodup hi, hentries, Signal.composite]
    constructor
    · exact names_nodup_mergeComponent h.names_nodup hk
    · intro s hs
      by_cases hname : k.name = s
      · subst hname
        rw [if_pos rfl]
        exact (hmem _).mpr (Or.inl rfl)
      · rw [if_neg hname, List.append_nil] at hs ⊢
        exact (hmem _).mpr (Or.inr (Or.inl ⟨h.composite_mem s hs, Ne.symm hname⟩))
    · intro s
      rw [composites_mergeComponent hi, Table.get?_insert]
      by_cases hname : k.name = s
      · subst hname
        rw [if_pos rfl, if_pos rfl]
        exact hentries
      · rw [if_neg (Ne.symm hname), if_neg hname, List.append_nil]
        exact h.entries_eq s
    · intro r hr
      rcases (hmem r).mp hr with rfl | ⟨hr, hne⟩ | ⟨f, _, rfl⟩
      · refine Or.inr (Or.inr ⟨k.name, ?_, by rw [if_pos rfl]⟩)
        rw [if_pos rfl]
        exact List.append_ne_nil_of_right_ne_nil _ hi
      · rcases h.cases_mem r hr with hr | hr | ⟨s, hs, rfl⟩
        · exact Or.inl hr
        · exact Or.inr (Or.inl hr)
        · have hname : ¬ k.name = s := fun he => hne he.symm
          exact Or.inr (Or.inr ⟨s, by rwa [if_neg hname, List.append_nil],
            by rw [if_neg hname, List.append_nil]⟩)
      · exact Or.inr (Or.inl ⟨_, rfl⟩)
    · intro s f hf
      rcases List.mem_append.mp hf with hold | hf
      · exact names_subset_mergeComponent (h.declared s f hold)
      · by_cases hname : k.name = s
        · subst hname
          rw [if_pos rfl] at hf
          exact pushed_mem_mergeComponent (mem_introduced.mp hf).1
        · rw [if_neg hname] at hf
          cases hf

end Sound

/-! ## A whole run -/

/-- The fields that a run introduces for a selection, in order. -/
def admitted (s : String) : TopLevel → List Component → List Field
  | _, [] => []
  | t, k :: ks =>
    (if k.name = s then t.introduced k else []) ++ admitted s (t.mergeComponent k) ks

theorem Sound.run {kept : String → List Field} {ks : List Component} (h : t.Sound kept)
    (hks : ∀ k ∈ ks, k.pushedFields.Nodup) :
    (ks.foldl TopLevel.mergeComponent t).Sound fun s => kept s ++ admitted s t ks := by
  induction ks generalizing t kept with
  | nil => simpa [admitted] using h
  | cons k ks ih =>
    have hstep := h.mergeComponent (hks k List.mem_cons_self)
    have hrest := ih hstep fun k' hk' => hks k' (List.mem_cons_of_mem k hk')
    simpa [admitted, List.append_assoc] using hrest

theorem contains_track (t : TopLevel) : t.track.contains tracker.name = true := by
  rw [track]
  split
  · assumption
  · simp [contains]

theorem track_of_contains (h : t.contains tracker.name = true) : t.track = t := if_pos h

theorem names_subset_track {n : String} (hn : n ∈ t.names) : n ∈ t.track.names := by
  rw [track]
  split
  · exact hn
  · exact List.mem_cons_of_mem _ hn

theorem names_subset_merge {n : String} (ks : List Component) (hn : n ∈ t.names) :
    n ∈ (t.merge ks).names := by
  rw [merge]
  split
  · exact hn
  · exact names_subset_run _ (names_subset_track hn)

/-- Once the pointer is tracked, merging views is merging their components. -/
theorem foldl_merge_of_tracked (h : t.contains tracker.name = true)
    (views : List (List Component)) :
    views.foldl merge t = (views.flatten.filter Component.pushOuter).foldl mergeComponent t := by
  induction views generalizing t with
  | nil => rfl
  | cons ks views ih =>
    have hmerge : t.merge ks = (ks.filter Component.pushOuter).foldl mergeComponent t := by
      cases ks with
      | nil => rfl
      | cons k ks => rw [merge, List.isEmpty_cons, if_neg nofun, track_of_contains h]
    have hnext : (t.merge ks).contains tracker.name = true :=
      contains_iff.mpr (names_subset_merge ks (contains_iff.mp h))
    rw [List.foldl_cons, ih hnext, hmerge, List.flatten_cons, List.filter_append,
      List.foldl_append]

/-- The outermost scope is a run over the components that live there, unless there
is no component at all. -/
theorem foldl_merge_eq {views : List (List Component)} (h : views.flatten ≠ []) :
    views.foldl merge empty =
      (views.flatten.filter Component.pushOuter).foldl mergeComponent started := by
  induction views with
  | nil => exact absurd rfl h
  | cons ks views ih =>
    cases ks with
    | nil => exact ih h
    | cons k ks =>
      have hfirst : empty.merge (k :: ks) = started.merge (k :: ks) := by
        rw [merge, merge, started, track_of_contains (contains_track empty)]
        rfl
      rw [List.foldl_cons, hfirst, ← List.foldl_cons]
      exact foldl_merge_of_tracked (contains_track empty) _

/-! ## Fields that are lost -/

/-- The names that are taken after a component: those before it, and if one of its
data signals is new then its own and theirs. -/
def takenAfter (taken : List String) (k : Component) : List String :=
  if ∀ f ∈ k.pushedFields, dataSignalName k.name f ∈ taken then taken
  else taken ++ k.name :: k.pushedFields.map (dataSignalName k.name)

/-- Whether the name of a field's data signal was taken when the first component of
a selection came that has the field. -/
def preempted (s : String) (f : Field) : List String → List Component → Bool
  | _, [] => false
  | taken, k :: ks =>
    if k.name = s ∧ f ∈ k.pushedFields then taken.contains (dataSignalName s f)
    else preempted s f (takenAfter taken k) ks

/-- The names that are taken are the names of the signals. -/
theorem mem_names_mergeComponent {taken : List String} (ht : ∀ n, n ∈ taken ↔ n ∈ t.names)
    (n : String) : n ∈ takenAfter taken k ↔ n ∈ (t.mergeComponent k).names := by
  unfold takenAfter
  by_cases hi : t.introduced k = []
  · have hall : ∀ f ∈ k.pushedFields, dataSignalName k.name f ∈ taken :=
      fun f hf => (ht _).mpr (introduced_eq_nil_iff.mp hi f hf)
    rw [if_pos hall, mergeComponent_of_nil hi, ht]
  · obtain ⟨f, hf⟩ := List.exists_mem_of_ne_nil _ hi
    obtain ⟨hpushed, hnew⟩ := mem_introduced.mp hf
    rw [if_neg fun hall => hnew ((ht _).mp (hall f hpushed)), List.mem_append, List.mem_cons, ht]
    constructor
    · rintro (hn | rfl | hn)
      · exact names_subset_mergeComponent hn
      · rw [names_mergeComponent hi]
        refine List.mem_append_left _ ?_
        split
        · assumption
        · exact List.mem_append_right _ (List.mem_singleton.mpr rfl)
      · obtain ⟨g, hg, rfl⟩ := List.mem_map.mp hn
        exact pushed_mem_mergeComponent hg
    · intro hn
      rw [names_mergeComponent hi] at hn
      rcases List.mem_append.mp hn with hn | hn
      · split at hn
        · exact Or.inl hn
        · exact (List.mem_append.mp hn).imp id fun hn => Or.inl (List.mem_singleton.mp hn)
      · obtain ⟨g, hg, rfl⟩ := List.mem_map.mp hn
        exact Or.inr (Or.inr (List.mem_map.mpr ⟨g, (mem_introduced.mp hg).1, rfl⟩))

/-- The fields that a selection keeps in the outermost scope, each once. -/
def pushedUnion (s : String) (ks : List Component) : List Field :=
  ((ks.filter fun k => k.name = s).flatMap Component.pushedFields).eraseDups

theorem mem_pushedUnion {ks : List Component} :
    f ∈ pushedUnion s ks ↔ ∃ k ∈ ks, k.name = s ∧ f ∈ k.pushedFields := by
  simp [pushedUnion, List.mem_eraseDups, and_assoc]

theorem preempted_of_mem {taken : List String} {ks : List Component}
    (hn : dataSignalName s f ∈ taken) (hf : f ∈ pushedUnion s ks) :
    preempted s f taken ks = true := by
  induction ks generalizing taken with
  | nil => cases hf
  | cons k ks ih =>
    rw [preempted]
    split
    · exact List.contains_iff_mem.mpr hn
    · rename_i hk
      have hafter : dataSignalName s f ∈ takenAfter taken k := by
        unfold takenAfter
        split
        · exact hn
        · exact List.mem_append_left _ hn
      refine ih hafter ?_
      obtain ⟨k', hk', hname, hpushed⟩ := mem_pushedUnion.mp hf
      rcases List.mem_cons.mp hk' with rfl | hk'
      · exact absurd ⟨hname, hpushed⟩ hk
      · exact mem_pushedUnion.mpr ⟨k', hk', hname, hpushed⟩

theorem filter_eraseDups (p : Field → Bool) (fs : List Field) :
    (fs.filter p).eraseDups = fs.eraseDups.filter p := by
  induction hn : fs.length using Nat.strongRecOn generalizing fs with
  | ind n ih =>
    cases fs with
    | nil => rfl
    | cons f fs =>
      have hlt : (fs.filter fun g => !g == f).length < n := by
        rw [← hn, List.length_cons]
        exact Nat.lt_succ_of_le (List.length_filter_le _ _)
      rw [List.eraseDups_cons, List.filter_cons, List.filter_cons, ← ih _ hlt _ rfl]
      by_cases hp : p f = true
      · rw [if_pos hp, if_pos hp, List.eraseDups_cons, List.filter_filter, List.filter_filter]
        simp only [Bool.and_comm]
      · -- what passes the test differs from `f`
        rw [if_neg hp, if_neg hp, List.filter_filter]
        refine congrArg List.eraseDups (List.filter_congr fun g _ => ?_)
        by_cases hg : g = f
        · subst hg
          simp [hp]
        · simp [hg]

theorem eraseDups_of_nodup {fs : List Field} (h : fs.Nodup) : fs.eraseDups = fs := by
  induction fs with
  | nil => rfl
  | cons f fs ih =>
    obtain ⟨hf, hfs⟩ := List.nodup_cons.mp h
    have hall : (fs.filter fun g => !g == f) = fs := by
      refine List.filter_eq_self.mpr fun g hg => ?_
      have hne : g ≠ f := fun he => hf (he ▸ hg)
      simpa using hne
    rw [List.eraseDups_cons, hall, ih hfs]

/-- A run introduces for a selection the fields that it keeps in the outermost
scope, in order of first mention, but for the preempted ones. -/
theorem admitted_eq_filter {taken : List String} {ks : List Component}
    (ht : ∀ n, n ∈ taken ↔ n ∈ t.names) (hks : ∀ k ∈ ks, k.pushedFields.Nodup) :
    admitted s t ks = (pushedUnion s ks).filter fun f => !preempted s f taken ks := by
  induction ks generalizing t taken with
  | nil => rfl
  | cons k ks ih =>
    have hnext := mem_names_mergeComponent (k := k) ht
    have ih := ih hnext fun k' hk' => hks k' (List.mem_cons_of_mem k hk')
    by_cases hname : k.name = s
    · have hunion : pushedUnion s (k :: ks) =
          k.pushedFields ++ (pushedUnion s ks).filter fun f => !k.pushedFields.elem f := by
        rw [pushedUnion, List.filter_cons_of_pos (by simpa using hname), List.flatMap_cons,
          List.eraseDups_append, eraseDups_of_nodup (hks k List.mem_cons_self),
          List.removeAll, filter_eraseDups, pushedUnion]
      rw [admitted, if_pos hname, ih, hunion, List.filter_append, List.filter_filter]
      congr 1
      · refine List.filter_congr fun f hf => ?_
        have htaken : taken.contains (dataSignalName s f) = t.contains (dataSignalName s f) := by
          rw [Bool.eq_iff_iff, List.contains_iff_mem, ht, contains_iff]
        rw [preempted, if_pos ⟨hname, hf⟩, htaken, hname]
      · refine List.filter_congr fun f hf => ?_
        by_cases hk : f ∈ k.pushedFields
        · -- the data signal is there since `k`
          have hthere := (hnext _).mpr (pushed_mem_mergeComponent (t := t) hk)
          rw [hname] at hthere
          simp [preempted_of_mem hthere hf, hk]
        · simp [preempted, hk]
    · have hunion : pushedUnion s (k :: ks) = pushedUnion s ks := by
        rw [pushedUnion, List.filter_cons_of_neg (by simpa using hname), pushedUnion]
      have hpre : ∀ f, preempted s f taken (k :: ks) = preempted s f (takenAfter taken k) ks :=
        fun f => by rw [preempted, if_neg fun h => hname h.1]
      simp only [admitted, if_neg hname, List.nil_append, ih, hunion, hpre]

/-- The fields in the composite of a selection, for the components that live in the
outermost scope: all but the preempted ones. -/
def compositeFields (outer : List Component) (s : String) : List Field :=
  (pushedUnion s outer).filter fun f => !preempted s f [tracker.name] outer

theorem admitted_started {outer : List Component} (h : ∀ k ∈ outer, k.pushedFields.Nodup)
    (s : String) : admitted s started outer = compositeFields outer s :=
  admitted_eq_filter (fun _ => Iff.rfl) h

theorem foldl_merge_of_nil {views : List (List Component)} (h : views.flatten = []) :
    views.foldl merge empty = empty := by
  induction views with
  | nil => rfl
  | cons ks views ih =>
    obtain ⟨rfl, hrest⟩ := List.append_eq_nil_iff.mp h
    exact ih hrest

theorem sound_foldl_merge {views : List (List Component)}
    (hks : ∀ k ∈ views.flatten, k.pushedFields.Nodup) :
    (views.foldl merge empty).Sound
      (compositeFields (views.flatten.filter Component.pushOuter)) := by
  by_cases h : views.flatten = []
  · rw [foldl_merge_of_nil h, h]
    exact sound_empty
  · have houter : ∀ k ∈ views.flatten.filter Component.pushOuter, k.pushedFields.Nodup :=
      fun k hk => hks k (List.mem_filter.mp hk).1
    rw [foldl_merge_eq h]
    convert sound_started.run houter using 2 with s
    rw [List.nil_append, admitted_started houter]

theorem pushed_mem_foldl_merge {views : List (List Component)} (hk : k ∈ views.flatten)
    (houter : k.pushOuter = true) (hf : f ∈ k.pushedFields) :
    dataSignalName k.name f ∈ (views.foldl merge empty).names := by
  rw [foldl_merge_eq (List.ne_nil_of_mem hk)]
  exact pushed_mem_run (List.mem_filter.mpr ⟨hk, houter⟩) hf

end TopLevel

end BrushLink
