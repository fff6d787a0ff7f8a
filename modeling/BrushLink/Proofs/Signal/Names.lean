import BrushLink.Proofs.Scale.Shown
import BrushLink.Proofs.Selection.Lookup
import BrushLink.Proofs.Signal.Keys
import Mathlib.Order.Bounds.Defs

/-! # The names of signals

Apart from its composite, the signals of a component have the name of the selection in
common and differ in what follows it: `tuple`, a field, or a channel with `px`
(`Component.suffixes`).  Only the last kind gives way if the name is taken, and only to
fields: the search for its name ends with the first that no data signal has
(`Component.visualName_first_free`).  So within a component two signals have one name exactly
if a field is called `tuple` (`Component.names_nodup_iff`).

Names of selections are free, so one may continue another with an underscore and what
looks like a suffix of it.  `Component.Apart` says that this does no harm, and on a view
all names differ exactly if it holds of any two of its components
(`unit_names_nodup_iff`).  In the outermost scope names never clash, since a signal whose
name is taken is not introduced there (`topLevel_names_nodup`).
-/
namespace BrushLink

namespace Component
variable {k k' : Component} {view n : String} {scaleName : Channel → Option String} {c c' : Channel}

/-! ## Names that give way -/

theorem freeName_joined (s : String) (taken : List String) (times : Nat) (candidate : String) :
    freeName (taken.map (joined s)) times (joined s candidate) =
      joined s (freeName taken times candidate) := by
  have hcontains : ∀ candidate,
      (taken.map (joined s)).contains (joined s candidate) = taken.contains candidate := by
    intro candidate
    rw [Bool.eq_iff_iff, List.contains_iff_mem, List.contains_iff_mem, List.mem_map]
    constructor
    · rintro ⟨t, ht, he⟩
      exact joined_inj.mp he ▸ ht
    · exact fun h => ⟨candidate, h, rfl⟩
  induction times generalizing candidate with
  | zero => rfl
  | succ times ih =>
    rw [freeName, freeName, hcontains]
    split
    · rw [← ih, joined, joined, String.append_assoc]
    · rfl

theorem exists_freeName_eq (taken : List String) (times : Nat) (candidate : String) :
    ∃ rest, freeName taken times candidate = candidate ++ rest := by
  induction times generalizing candidate with
  | zero => exact ⟨"", String.append_empty.symm⟩
  | succ times ih =>
    rw [freeName]
    split
    · obtain ⟨rest, hrest⟩ := ih (candidate ++ "_")
      exact ⟨"_" ++ rest, by rw [hrest, String.append_assoc]⟩
    · exact ⟨"", String.append_empty.symm⟩

/-- A candidate that is taken is never met again, so the taken names run out. -/
theorem freeName_notMem {taken : List String} {times : Nat} {candidate : String}
    (h : (taken.filter fun t => candidate.length ≤ t.length).length ≤ times) :
    freeName taken times candidate ∉ taken := by
  induction times generalizing candidate with
  | zero =>
    intro hmem
    have hnil := List.length_eq_zero_iff.mp (Nat.le_zero.mp h)
    have hkept : candidate ∈ taken.filter fun t => candidate.length ≤ t.length :=
      List.mem_filter.mpr ⟨hmem, decide_eq_true (Nat.le_refl _)⟩
    rw [hnil] at hkept
    cases hkept
  | succ times ih =>
    rw [freeName]
    split
    · rename_i htaken
      refine ih (Nat.le_of_lt_succ (Nat.lt_of_lt_of_le ?_ h))
      have hlength : (candidate ++ "_").length = candidate.length + 1 := String.length_append _ _
      -- of the names that are long enough for the candidate, the candidate itself is too
      -- short for the next one
      have hfilter : taken.filter (fun t => (candidate ++ "_").length ≤ t.length) =
          (taken.filter fun t => candidate.length ≤ t.length).filter
            fun t => (candidate ++ "_").length ≤ t.length := by
        rw [List.filter_filter]
        refine List.filter_congr fun t _ => ?_
        rw [hlength, ← Bool.decide_and]
        exact decide_eq_decide.mpr (by omega)
      rw [hfilter, List.length_filter_lt_length_iff_exists]
      refine ⟨candidate, List.mem_filter.mpr ⟨List.contains_iff_mem.mp htaken, ?_⟩, ?_⟩
      · exact decide_eq_true (Nat.le_refl _)
      · rw [hlength, decide_eq_true_eq]
        omega
    · rename_i hfree
      exact fun hmem => hfree (List.contains_iff_mem.mpr hmem)

/-- The search for a free name without a bound on it: from a candidate it halts after so many
rounds with a name.  In each round a taken candidate gets an underscore more. -/
inductive Search (taken : List String) : String → Nat → String → Prop
  | halt {candidate : String} (hfree : candidate ∉ taken) : Search taken candidate 0 candidate
  | round {candidate name : String} {rounds : Nat} (htaken : candidate ∈ taken)
      (hrest : Search taken (candidate ++ "_") rounds name) :
      Search taken candidate (rounds + 1) name

/-- A text with so many underscores behind it. -/
def underscored (s : String) (n : Nat) : String := s ++ String.ofList (List.replicate n '_')

theorem underscored_zero (s : String) : underscored s 0 = s := String.append_empty

theorem underscored_succ (s : String) (n : Nat) :
    underscored s (n + 1) = underscored (s ++ "_") n := by
  rw [underscored, underscored, List.replicate_succ, String.append_assoc]
  refine congrArg (s ++ ·) (String.toList_inj.mp ?_)
  rw [String.toList_append, String.toList_ofList, String.toList_ofList, String.toList_ofList]
  rfl

namespace Search
variable {taken : List String} {candidate name : String} {rounds : Nat}

theorem eq_underscored (h : Search taken candidate rounds name) :
    name = underscored candidate rounds := by
  induction h with
  | halt _ => exact (underscored_zero _).symm
  | round _ _ ih => rw [ih, underscored_succ]

theorem notMem (h : Search taken candidate rounds name) : name ∉ taken := by
  induction h with
  | halt hfree => exact hfree
  | round _ _ ih => exact ih

theorem underscored_mem (h : Search taken candidate rounds name) {m : Nat} (hm : m < rounds) :
    underscored candidate m ∈ taken := by
  induction h generalizing m with
  | halt _ => exact absurd hm (Nat.not_lt_zero m)
  | round htaken _ ih =>
    cases m with
    | zero => rwa [underscored_zero]
    | succ m =>
      rw [underscored_succ]
      exact ih (Nat.lt_of_succ_lt_succ hm)

/-- No candidate is passed over, so the search halts at the first that is free. -/
theorem isLeast (h : Search taken candidate rounds name) :
    IsLeast {n | underscored candidate n ∉ taken} rounds := by
  constructor
  · change underscored candidate rounds ∉ taken
    rw [← h.eq_underscored]
    exact h.notMem
  · intro m hfree
    by_contra hlt
    exact hfree (h.underscored_mem (Nat.lt_of_not_le hlt))

/-- A bounded search that comes to a free name is not cut off by its bound. -/
theorem of_freeName {times : Nat} (h : freeName taken times candidate ∉ taken) :
    ∃ rounds ≤ times, Search taken candidate rounds (freeName taken times candidate) := by
  induction times generalizing candidate with
  | zero => exact ⟨0, Nat.le_refl 0, halt h⟩
  | succ times ih =>
    rw [freeName] at h ⊢
    split at h
    · rename_i htaken
      obtain ⟨rounds, hle, hrest⟩ := ih h
      rw [if_pos htaken]
      exact ⟨rounds + 1, Nat.succ_le_succ hle, round (List.contains_iff_mem.mp htaken) hrest⟩
    · rename_i hfree
      rw [if_neg hfree]
      exact ⟨0, Nat.zero_le _, halt h⟩

end Search

theorem search_visualName (k : Component) (c : Channel) :
    ∃ rounds ≤ k.projections.length,
      Search k.dataNames (k.name ++ "_" ++ c.name ++ "_px") rounds (k.visualName c) := by
  have hlength : k.dataNames.length = k.projections.length := List.length_map _
  have hfree : k.visualName c ∉ k.dataNames := freeName_notMem (List.length_filter_le _ _)
  rw [← hlength]
  exact Search.of_freeName hfree

/-- What follows the name of the selection in the name of the signal for the extent of a
channel in pixels. -/
def visualSuffix (k : Component) (c : Channel) : String :=
  freeName (k.fields.map Field.name) k.fields.length (c.name ++ "_px")

theorem dataNames_eq (k : Component) :
    k.dataNames = (k.fields.map Field.name).map (joined k.name) := by
  rw [dataNames, fields, List.map_map, List.map_map]
  rfl

theorem visualName_eq (k : Component) (c : Channel) :
    k.visualName c = joined k.name (k.visualSuffix c) := by
  have hcandidate : k.name ++ "_" ++ c.name ++ "_px" = joined k.name (c.name ++ "_px") :=
    String.append_assoc
  rw [visualName, hcandidate, dataNames_eq, List.length_map, List.length_map, freeName_joined]
  rfl

theorem visualSuffix_notMem (k : Component) (c : Channel) :
    k.visualSuffix c ∉ k.fields.map Field.name := by
  refine freeName_notMem (Nat.le_trans (List.length_filter_le _ _) ?_)
  rw [List.length_map]

theorem head?_visualSuffix (hc : c.isPositional) :
    (k.visualSuffix c).toList.head? = c.name.toList.head? := by
  obtain ⟨rest, hrest⟩ := exists_freeName_eq (k.fields.map Field.name) k.fields.length
    (c.name ++ "_px")
  rw [visualSuffix, hrest, String.toList_append, String.toList_append]
  cases c with
  | x => rfl
  | y => rfl
  | _ => cases hc

theorem visualSuffix_inj (hc : c.isPositional) (hc' : c'.isPositional)
    (h : k.visualSuffix c = k.visualSuffix c') : c = c' := by
  have hhead : c.name.toList.head? = c'.name.toList.head? := by
    rw [← head?_visualSuffix hc, h, head?_visualSuffix hc']
  cases c with
  | x => cases c' with
    | x => rfl
    | y => cases hhead
    | _ => cases hc'
  | y => cases c' with
    | x => cases hhead
    | y => rfl
    | _ => cases hc'
  | _ => cases hc

theorem visualSuffix_ne_tuple (hc : c.isPositional) : k.visualSuffix c ≠ "tuple" := by
  intro h
  have hhead := head?_visualSuffix (k := k) hc
  rw [h] at hhead
  cases c with
  | x => cases hhead
  | y => cases hhead
  | _ => cases hc

theorem notMem_map_joined (s : String) (ts : List String) : s ∉ ts.map (joined s) := by
  intro h
  obtain ⟨t, _, ht⟩ := List.mem_map.mp h
  exact joined_ne s t ht

theorem tupleName_eq (k : Component) : k.tupleName = joined k.name "tuple" := by
  rw [tupleName, joined, String.append_assoc]
  rfl

theorem reserved_nodup (k : Component) :
    [k.name, k.tupleName, k.visualName .x, k.visualName .y].Nodup := by
  have hsuffixes : ["tuple", k.visualSuffix .x, k.visualSuffix .y].Nodup := by
    have hxy : k.visualSuffix .x ≠ k.visualSuffix .y := by
      intro he
      cases visualSuffix_inj rfl rfl he
    have hx : k.visualSuffix .x ≠ "tuple" := visualSuffix_ne_tuple rfl
    have hy : k.visualSuffix .y ≠ "tuple" := visualSuffix_ne_tuple rfl
    simp [hxy, hx.symm, hy.symm]
  rw [visualName_eq, visualName_eq, tupleName_eq]
  exact List.nodup_cons.mpr
    ⟨notMem_map_joined _ ["tuple", _, _], hsuffixes.map (joined_injective k.name)⟩

/-- **The name for the pixels of a channel is the first that is free.**  Whatever fields a
component captures, the search for the name halts, after no more rounds than there are
projections, and it appends the least number of underscores that keeps clear of the data
signals.  The names for the two positions are neither each other's nor those of the tuple and
the composite. -/
theorem visualName_first_free (k : Component) :
    (∀ c : Channel, ∃ rounds ≤ k.projections.length,
      Search (k.projections.map fun p => k.name ++ "_" ++ p.field.name)
        (k.name ++ "_" ++ c.name ++ "_px") rounds (k.visualName c) ∧
      k.visualName c = underscored (k.name ++ "_" ++ c.name ++ "_px") rounds ∧
      IsLeast {n | underscored (k.name ++ "_" ++ c.name ++ "_px") n ∉
        k.projections.map fun p => k.name ++ "_" ++ p.field.name} rounds) ∧
    [k.name, k.name ++ "_tuple", k.visualName .x, k.visualName .y].Nodup := by
  refine ⟨?_, k.reserved_nodup⟩
  intro c
  obtain ⟨rounds, hle, hsearch⟩ := k.search_visualName c
  exact ⟨rounds, hle, hsearch, hsearch.eq_underscored, hsearch.isLeast⟩

/-- A brush whose fields are called like the first two candidates. -/
def crowded : Component :=
  ⟨"brush", .interval, .global, none, "click", [⟨some .x, ⟨"x_px_"⟩⟩, ⟨some .y, ⟨"x_px"⟩⟩], [],
    false, 0⟩

/-- Each field in the way costs a round, in whatever order they come. -/
theorem visualName_first_free_crowded :
    crowded.visualName .x = "brush_x_px__" ∧
      Search ["brush_x_px_", "brush_x_px"] "brush_x_px" 2 "brush_x_px__" ∧
      IsLeast {n | underscored "brush_x_px" n ∉ ["brush_x_px_", "brush_x_px"]} 2 ∧
      ["brush", "brush_tuple", "brush_x_px__", "brush_y_px"].Nodup := by
  obtain ⟨hchannels, hnodup⟩ := visualName_first_free crowded
  obtain ⟨rounds, hle, hsearch, hname, hleast⟩ := hchannels .x
  change rounds ≤ 2 at hle
  -- fewer underscores would give another name than the one that is computed
  obtain rfl | rfl | rfl : rounds = 0 ∨ rounds = 1 ∨ rounds = 2 := by omega
  · exact absurd hname (by decide)
  · exact absurd hname (by decide)
  · exact ⟨by decide, hsearch, hleast, hnodup⟩

/-! ## The names of a component -/

/-- The names of the signals for extents in pixels: an interval has one for each
captured channel that it does not drive. -/
def visualNames (k : Component) : List String :=
  if k.type = .interval then
    (k.brushed.filter fun b => !k.drives b.1).map fun b => k.visualName b.1
  else []

/-- The names of the signals without the composite. -/
def ownNames (k : Component) : List String := k.tupleName :: (k.dataNames ++ k.visualNames)

theorem names_brushSignals (k : Component) (scaleName : Channel → Option String) (c : Channel)
    (f : Field) :
    (k.brushSignals scaleName c f).map Signal.name =
      (if k.drives c then [] else [k.visualName c]) ++ [dataSignalName k.name f] := by
  rw [brushSignals]
  split
  · split <;> rfl
  · rfl

theorem names_brushed_perm (k : Component) (scaleName : Channel → Option String)
    (bs : List (Channel × Field)) :
    ((bs.flatMap fun b => k.brushSignals scaleName b.1 b.2).map Signal.name).Perm
      (bs.map (fun b => dataSignalName k.name b.2) ++
        (bs.filter fun b => !k.drives b.1).map fun b => k.visualName b.1) := by
  induction bs with
  | nil => exact .nil
  | cons b bs ih =>
    rw [List.flatMap_cons, List.map_append, names_brushSignals, List.map_cons, List.filter_cons]
    cases k.drives b.1 with
    | true => exact ih.cons _
    | false =>
      rw [Bool.not_false, if_pos rfl, List.map_cons]
      refine List.Perm.trans ?_ List.perm_middle.symm
      exact (ih.cons _).cons _

/-- An interval captures through channels only, so it has brushed every field. -/
theorem map_brushed (hpositional : ∀ p ∈ k.projections, p.isPositional) :
    k.brushed.map Prod.snd = k.fields := by
  rw [brushed, List.map_filterMap, fields, ← List.filterMap_eq_map]
  refine List.filterMap_congr fun p hp => ?_
  obtain ⟨c, hc, _⟩ := (Option.any_eq_true _ _).mp (hpositional p hp)
  rw [hc]
  rfl

theorem names_pointSignals (k : Component) (view : String) :
    (k.pointSignals view).map Signal.name = k.tupleName :: k.dataNames := by
  rw [pointSignals, List.map_cons]
  refine congrArg₂ List.cons rfl (List.ext_getElem (by simp [dataNames]) ?_)
  intro i _ _
  simp [dataNames, Signal.following, Signal.name]

theorem names_intervalSignals_perm (hpositional : ∀ p ∈ k.projections, p.isPositional)
    (htype : k.type = .interval) :
    ((k.intervalSignals view scaleName).map Signal.name).Perm k.ownNames := by
  have hdata : k.brushed.map (fun b => dataSignalName k.name b.2) = k.dataNames := by
    rw [dataNames_eq, ← map_brushed hpositional, List.map_map, List.map_map]
    rfl
  have hbrushed := k.names_brushed_perm scaleName k.brushed
  rw [hdata] at hbrushed
  rw [intervalSignals, List.map_append, ownNames, visualNames, if_pos htype]
  exact (List.perm_append_singleton _ _).trans (hbrushed.cons _)

/-- The names of the signals of a component. -/
theorem names_signals_perm {tree : ViewTree} (hd : k.DeclaredIn tree) :
    ((k.signals view scaleName).map Signal.name).Perm
      (k.ownNames ++ if k.pushOuter then [] else [k.name]) := by
  have hpoint : k.type ≠ .interval → (k.pointSignals view).map Signal.name = k.ownNames := by
    intro htype
    rw [names_pointSignals, ownNames, visualNames, if_neg htype, List.append_nil]
  have hown : ((k.ownSignals view scaleName).map Signal.name).Perm k.ownNames := by
    rw [ownSignals]
    split
    · rename_i htype
      exact names_intervalSignals_perm (hd.positional htype) htype
    · rename_i htype
      exact .of_eq (hpoint (by simp [htype]))
    · rename_i htype
      exact .of_eq (hpoint (by simp [htype]))
  rw [signals_eq, List.map_append]
  refine hown.append ?_
  split <;> exact .refl _

theorem mem_names_signals {tree : ViewTree} (hd : k.DeclaredIn tree) :
    n ∈ (k.signals view scaleName).map Signal.name ↔
      n ∈ k.ownNames ∨ k.pushOuter = false ∧ k.name = n := by
  rw [(names_signals_perm hd).mem_iff, List.mem_append]
  cases k.pushOuter with
  | true => simp
  | false => simp [eq_comm]

/-- What follows the name of the selection in the names of the signals for extents in
pixels. -/
def visualSuffixes (k : Component) : List String :=
  if k.type = .interval then
    (k.brushed.filter fun b => !k.drives b.1).map fun b => k.visualSuffix b.1
  else []

/-- What follows the name of the selection in the names of its signals. -/
def suffixes (k : Component) : List String :=
  "tuple" :: (k.fields.map Field.name ++ k.visualSuffixes)

theorem ownNames_eq (k : Component) : k.ownNames = k.suffixes.map (joined k.name) := by
  have hvisual : k.visualNames = k.visualSuffixes.map (joined k.name) := by
    rw [visualNames, visualSuffixes]
    split
    · rw [List.map_map]
      exact List.map_congr_left fun b _ => k.visualName_eq b.1
    · rfl
  rw [ownNames, tupleName_eq, dataNames_eq, hvisual, suffixes, List.map_cons, List.map_append]

theorem mem_ownNames : n ∈ k.ownNames ↔ ∃ s ∈ k.suffixes, joined k.name s = n := by
  rw [ownNames_eq, List.mem_map]

/-! ## Uniqueness within a component -/

/-- A brush has one field on a channel. -/
def ChannelsDiffer (k : Component) : Prop :=
  ∀ b ∈ k.brushed, ∀ b' ∈ k.brushed, b.1 = b'.1 → b.2 = b'.2

theorem isPositional_of_mem_brushed (hpositional : ∀ p ∈ k.projections, p.isPositional)
    {b : Channel × Field} (hb : b ∈ k.brushed) : b.1.isPositional := by
  obtain ⟨p, hp, hc, _⟩ := mem_brushed.mp hb
  have hpc := hpositional p hp
  rwa [Projection.isPositional, hc, Option.any_some] at hpc

theorem visualSuffixes_nodup {tree : ViewTree} (hd : k.DeclaredIn tree) (hk : k.ChannelsDiffer) :
    k.visualSuffixes.Nodup := by
  rw [visualSuffixes]
  split
  · rename_i htype
    have hpositional := hd.positional htype
    have hbrushed : k.brushed.Nodup := by
      refine List.Nodup.of_map Prod.snd ?_
      rw [map_brushed hpositional]
      exact hd.fields_nodup
    refine List.Nodup.map_on ?_ (hbrushed.filter _)
    intro b hb b' hb' he
    have hb := (List.mem_filter.mp hb).1
    have hb' := (List.mem_filter.mp hb').1
    have hchannel : b.1 = b'.1 := visualSuffix_inj (isPositional_of_mem_brushed hpositional hb)
      (isPositional_of_mem_brushed hpositional hb') he
    exact Prod.ext hchannel (hk b hb b' hb' hchannel)
  · exact List.nodup_nil

theorem exists_visualSuffix {tree : ViewTree} (hd : k.DeclaredIn tree) {s : String}
    (h : s ∈ k.visualSuffixes) : ∃ c : Channel, c.isPositional ∧ s = k.visualSuffix c := by
  rw [visualSuffixes] at h
  split at h
  · rename_i htype
    obtain ⟨b, hb, rfl⟩ := List.mem_map.mp h
    have hb := (List.mem_filter.mp hb).1
    exact ⟨b.1, isPositional_of_mem_brushed (hd.positional htype) hb, rfl⟩
  · cases h

theorem suffixes_nodup_iff {tree : ViewTree} (hd : k.DeclaredIn tree) (hk : k.ChannelsDiffer) :
    k.suffixes.Nodup ↔ ⟨"tuple"⟩ ∉ k.fields := by
  have hfields : (k.fields.map Field.name).Nodup := by
    exact List.Nodup.map_on (fun f _ g _ he => Field.eq_of_name he) hd.fields_nodup
  have hrest : (k.fields.map Field.name ++ k.visualSuffixes).Nodup := by
    refine List.nodup_append'.mpr ⟨hfields, visualSuffixes_nodup hd hk, ?_⟩
    intro s hs hs'
    obtain ⟨c, _, rfl⟩ := exists_visualSuffix hd hs'
    exact k.visualSuffix_notMem c hs
  have htuple : "tuple" ∈ k.fields.map Field.name ++ k.visualSuffixes ↔ ⟨"tuple"⟩ ∈ k.fields := by
    rw [List.mem_append, List.mem_map]
    constructor
    · rintro (⟨f, hf, he⟩ | hs)
      · cases f
        exact he ▸ hf
      · obtain ⟨c, hc, he⟩ := exists_visualSuffix hd hs
        exact absurd he.symm (visualSuffix_ne_tuple hc)
    · exact fun h => Or.inl ⟨_, h, rfl⟩
  rw [suffixes, List.nodup_cons, htuple, and_iff_left hrest]

/-- The signals of a component have different names unless a field is called `tuple`. -/
theorem names_nodup_iff {tree : ViewTree} (hd : k.DeclaredIn tree) (hk : k.ChannelsDiffer) :
    ((k.signals view scaleName).map Signal.name).Nodup ↔ ⟨"tuple"⟩ ∉ k.fields := by
  have hname : k.name ∉ k.ownNames := by
    rw [ownNames_eq]
    exact notMem_map_joined _ _
  have hown : (k.ownNames ++ if k.pushOuter then [] else [k.name]).Nodup ↔ k.ownNames.Nodup := by
    split
    · rw [List.append_nil]
    · rw [List.nodup_append_comm, List.singleton_append, List.nodup_cons, and_iff_right hname]
  rw [(names_signals_perm hd).nodup_iff, hown, ownNames_eq,
    List.nodup_map_iff (joined_injective k.name), suffixes_nodup_iff hd hk]

/-! ## Uniqueness across components -/

/-- The other component does no harm to this one: if its name continues this one's with an
underscore, none of its signals has the name of one of this one's. -/
def Apart (k k' : Component) : Prop :=
  ∀ r, k'.name = joined k.name r →
    (k'.pushOuter = false → r ∉ k.suffixes) ∧ ∀ s ∈ k'.suffixes, joined r s ∉ k.suffixes

theorem apart_of_disjoint {tree : ViewTree} (hd : k.DeclaredIn tree) (hd' : k'.DeclaredIn tree)
    (h : ((k.signals view scaleName).map Signal.name).Disjoint
      ((k'.signals view scaleName).map Signal.name)) : k.Apart k' := by
  intro r hname
  have hown : ∀ s ∈ k.suffixes, joined k.name s ∈ (k.signals view scaleName).map Signal.name :=
    fun s hs => (mem_names_signals hd).mpr (Or.inl (mem_ownNames.mpr ⟨s, hs, rfl⟩))
  constructor
  · intro houter hr
    exact h (hown r hr) ((mem_names_signals hd').mpr (Or.inr ⟨houter, hname⟩))
  · intro s hs hr
    refine h (hown _ hr) ((mem_names_signals hd').mpr (Or.inl (mem_ownNames.mpr ⟨s, hs, ?_⟩)))
    rw [hname, joined_assoc]

theorem disjoint_names_iff {tree : ViewTree} (hd : k.DeclaredIn tree) (hd' : k'.DeclaredIn tree)
    (hne : k.name ≠ k'.name) :
    ((k.signals view scaleName).map Signal.name).Disjoint
        ((k'.signals view scaleName).map Signal.name) ↔ k.Apart k' ∧ k'.Apart k := by
  constructor
  · intro h
    exact ⟨apart_of_disjoint hd hd' h, apart_of_disjoint hd' hd (List.disjoint_symm h)⟩
  · rintro ⟨h, h'⟩ n hn hn'
    rcases (mem_names_signals hd).mp hn with hn | ⟨houter, rfl⟩
    · obtain ⟨s, hs, rfl⟩ := mem_ownNames.mp hn
      rcases (mem_names_signals hd').mp hn' with hn' | ⟨houter', he⟩
      · obtain ⟨s', hs', he⟩ := mem_ownNames.mp hn'
        -- one of the two selection names continues the other, and takes the underscore along
        rcases (joined_eq_joined_iff hne).mp he.symm with ⟨r, hname, rfl⟩ | ⟨r, hname, rfl⟩
        · exact (h r hname).2 s' hs' hs
        · exact (h' r hname).2 s hs hs'
      · exact (h s he).1 houter' hs
    · rcases (mem_names_signals hd').mp hn' with hn' | ⟨_, he⟩
      · obtain ⟨s', hs', he⟩ := mem_ownNames.mp hn'
        exact (h' s' he.symm).1 houter hs'
      · exact hne he.symm

theorem apart_self (k : Component) : k.Apart k := by
  intro r h
  exact absurd h.symm (joined_ne k.name r)

end Component

/-! ## Uniqueness on a view -/

namespace Compilation
variable {spec : ViewSpec} {c : Compilation}

theorem channelsDiffer (hc : (ofSpec spec).result = .ok c) {k : Component}
    (hk : k ∈ c.registry.components) : k.ChannelsDiffer := by
  obtain ⟨htree, hparse⟩ := ofSpec_steps hc
  obtain ⟨u, _, hshown⟩ := exists_unit_of_component htree hparse hk
  intro b hb b' hb' he
  obtain ⟨p, hp, hpc, hpf⟩ := Component.mem_brushed.mp hb
  obtain ⟨q, hq, hqc, hqf⟩ := Component.mem_brushed.mp hb'
  have hfield := (hshown p hp b.1 hpc).symm.trans (hshown q hq b.1 (he ▸ hqc))
  rw [← hpf, ← hqf]
  exact Option.some.inj hfield

end Compilation

/-- **When the signals of a view have different names.**  They do exactly if none of its
selections captures a field called `tuple` and any two of its selections are apart.  So
they do in particular if no field is called so and no selection name continues another
with an underscore. -/
theorem unit_names_nodup_iff {spec : ViewSpec} {c : Compilation} {a : Artifact}
    {v : ViewId × ViewNode} {cv : CompiledView} (hc : (Compilation.ofSpec spec).result = .ok c)
    (ha : c.artifact.result = .ok a) (hv : (v, cv) ∈ c.tree.preorder.zip a.views) :
    (cv.signals.map Signal.name).Nodup ↔
      ∀ k ∈ c.registry.componentsOf v.1, ⟨"tuple"⟩ ∉ k.fields ∧
        ∀ k' ∈ c.registry.componentsOf v.1, k.Apart k' := by
  obtain ⟨htree, hparse⟩ := Compilation.ofSpec_steps hc
  have hw := (ViewTree.ofSpec_wellFormed htree).1
  have hkey := (Registry.completed_of_parse hparse).names_componentsOf_nodup hw v.1
  have hdeclared : ∀ k ∈ c.registry.componentsOf v.1, k.DeclaredIn c.tree ∧ k.ChannelsDiffer := by
    intro k hk
    have hk := (Registry.mem_componentsOf.mp hk).1
    exact ⟨Compilation.declaredIn hc hk, Compilation.channelsDiffer hc hk⟩
  obtain ⟨view, scaleName, he⟩ := unitSignals_ok (Compilation.signals_of_view hc ha hv)
  rw [he, List.map_flatMap, List.nodup_flatMap]
  constructor
  · rintro ⟨hown, hdisjoint⟩
    have hapart : (c.registry.componentsOf v.1).Pairwise Component.Apart :=
      hdisjoint.imp_of_mem fun hk hk' h =>
        Component.apart_of_disjoint (hdeclared _ hk).1 (hdeclared _ hk').1 h
    have hapart' : (c.registry.componentsOf v.1).Pairwise (flip Component.Apart) :=
      hdisjoint.imp_of_mem fun hk hk' h =>
        Component.apart_of_disjoint (hdeclared _ hk').1 (hdeclared _ hk).1 (List.disjoint_symm h)
    intro k hk
    refine ⟨(Component.names_nodup_iff (hdeclared k hk).1 (hdeclared k hk).2).mp (hown k hk), ?_⟩
    intro k' hk'
    exact hapart.forall_of_forall_of_flip (fun k _ => k.apart_self) hapart' hk hk'
  · intro h
    refine ⟨fun k hk => ?_, ?_⟩
    · exact (Component.names_nodup_iff (hdeclared k hk).1 (hdeclared k hk).2).mpr (h k hk).1
    · refine hkey.of_map.pairwise_of_forall_ne ?_
      intro k hk k' hk' hne
      have hname : k.name ≠ k'.name := fun he => hne (List.inj_on_of_nodup_map hkey hk hk' he)
      exact (Component.disjoint_names_iff (hdeclared k hk).1 (hdeclared k' hk').1 hname).mpr
        ⟨(h k hk).2 k' hk', (h k' hk').2 k hk⟩

/-- A brush whose field is called like the signal of its pixels, and another selection
whose name continues the brush's. -/
def ViewSpec.closeNames : ViewSpec :=
  points [(.x, .numeric "x_px")] [("brush", ⟨.interval, .none⟩), ("brush_y", ⟨.single, .none⟩)]

theorem unit_names_nodup_iff_closeNames :
    ∃ c a v cv, (Compilation.ofSpec .closeNames).result = .ok c ∧ c.artifact.result = .ok a ∧
      (v, cv) ∈ c.tree.preorder.zip a.views ∧
      cv.signals.map Signal.name = ["brush_x_px_", "brush_x_px", "brush_tuple", "brush",
        "brush_y_tuple", "brush_y_x_px", "brush_y"] ∧
      ∀ k ∈ c.registry.componentsOf v.1, ⟨"tuple"⟩ ∉ k.fields ∧
        ∀ k' ∈ c.registry.componentsOf v.1, k.Apart k' := by
  have hc : (Compilation.ofSpec .closeNames).result = .ok _ := rfl
  refine ⟨_, _, _, _, hc, rfl, List.mem_of_getElem? (i := 0) rfl, rfl, ?_⟩
  refine (unit_names_nodup_iff hc rfl (List.mem_of_getElem? (i := 0) rfl)).mp ?_
  decide +kernel

/-- A brush on a field called like the signal of the tuple. -/
def ViewSpec.tupleField : ViewSpec :=
  points [(.x, .numeric "tuple")]
    [("brush", ⟨.interval, { Settings.none with encodings := some [.x] }⟩)]

/-- The data of the field and the tuple go by one name. -/
theorem tupleField_names_clash :
    ∃ a, (compile .tupleField).result = .ok a ∧ ∃ cv ∈ a.views,
      cv.signals.map Signal.name = ["brush_x_px", "brush_tuple", "brush_tuple", "brush"] ∧
      ¬ (cv.signals.map Signal.name).Nodup :=
  ⟨_, rfl, by decide +kernel⟩

/-! ## Uniqueness in the outermost scope -/

/-- **Names of the outermost scope differ**, whatever selections and fields are called. -/
theorem topLevel_names_nodup {spec : ViewSpec} {a : Artifact}
    (h : (compile spec).result = .ok a) : (a.signals.map Signal.name).Nodup := by
  obtain ⟨c, hc, ha⟩ := compile_ok h
  rw [(Compilation.artifact_ok ha).1]
  exact (Compilation.sound_topLevel hc).names_nodup

/-- Also where the composite of one selection and the data of another would go by one
name. -/
theorem topLevel_names_nodup_nameClash :
    ∃ a, (compile .nameClash).result = .ok a ∧
      a.signals.map Signal.name = ["unit", "a_b", "a_b_c"] ∧
      (a.signals.map Signal.name).Nodup :=
  ⟨_, rfl, by decide +kernel, @topLevel_names_nodup .nameClash _ rfl⟩

end BrushLink
