import BrushLink.Table
import Mathlib.Data.List.Induction
import Mathlib.Data.List.Nodup

/-! # Looking up in tables

A table is read through `get?`.  Since no key stands twice, what is found under
a key is exactly what its entries pair with it (`get?_eq_some_iff`), and every
operation is described by what it makes of `get?`.
-/
namespace BrushLink

/-- Where no key stands twice, looking for a key finds whatever has it. -/
theorem find?_key_eq_some_iff {α κ : Type} [DecidableEq κ] {key : α → κ} {as : List α}
    (h : (as.map key).Nodup) {k : κ} {a : α} :
    as.find? (fun a => key a = k) = some a ↔ a ∈ as ∧ key a = k := by
  constructor
  · intro ha
    exact ⟨List.mem_of_find?_eq_some ha, by simpa using List.find?_some ha⟩
  · rintro ⟨ha, rfl⟩
    cases hfind : as.find? fun b => key b = key a with
    | none => simpa using List.find?_eq_none.mp hfind a ha
    | some b =>
      have hkey : key b = key a := by simpa using List.find?_some hfind
      rw [List.inj_on_of_nodup_map h (List.mem_of_find?_eq_some hfind) ha hkey]

namespace Table
variable {κ α β : Type} [DecidableEq κ]

omit [DecidableEq κ] in
theorem ext_entries {t t' : Table κ α} (h : t.entries = t'.entries) : t = t' := by
  cases t
  cases t'
  cases h
  rfl

theorem get?_eq_some_iff {t : Table κ α} {k : κ} {v : α} :
    t.get? k = some v ↔ (k, v) ∈ t.entries := by
  rw [get?, Option.map_eq_some_iff]
  constructor
  · rintro ⟨e, he, rfl⟩
    obtain ⟨hmem, rfl⟩ := (find?_key_eq_some_iff t.distinct).mp he
    exact hmem
  · intro h
    exact ⟨(k, v), (find?_key_eq_some_iff t.distinct).mpr ⟨h, rfl⟩, rfl⟩

theorem get?_eq_none_iff {t : Table κ α} {k : κ} : t.get? k = none ↔ k ∉ t.keys := by
  constructor
  · intro h hk
    obtain ⟨e, he, rfl⟩ := List.mem_map.mp hk
    rw [get?_eq_some_iff.mpr (show (e.1, e.2) ∈ t.entries from he)] at h
    cases h
  · intro h
    cases hg : t.get? k with
    | none => rfl
    | some v => exact absurd (List.mem_map.mpr ⟨_, get?_eq_some_iff.mp hg, rfl⟩) h

theorem mem_keys_iff {t : Table κ α} {k : κ} : k ∈ t.keys ↔ ∃ v, t.get? k = some v := by
  rw [← Option.isSome_iff_exists, ← not_iff_not, ← get?_eq_none_iff]
  simp

@[simp] theorem contains_iff {t : Table κ α} {k : κ} : t.contains k = true ↔ k ∈ t.keys := by
  rw [contains, Option.isSome_iff_exists, mem_keys_iff]

/-- A table is known from its keys and what is found under them. -/
theorem entries_eq_map_keys (t : Table κ (Option α)) :
    t.entries = t.keys.map fun k => (k, (t.get? k).join) := by
  rw [keys, List.map_map]
  refine (List.map_id _).symm.trans (List.map_congr_left fun e he => ?_)
  have hget : t.get? e.1 = some e.2 := get?_eq_some_iff.mpr he
  exact Prod.ext rfl (congrArg Option.join hget).symm

omit [DecidableEq κ] in
@[simp] theorem entries_empty : (∅ : Table κ α).entries = [] := rfl

@[simp] theorem get?_empty (k : κ) : (∅ : Table κ α).get? k = none := rfl

theorem ext_get? {t : Table κ α} {k : κ} {o : Option α}
    (h : ∀ v, (k, v) ∈ t.entries ↔ o = some v) : t.get? k = o := by
  apply Option.ext
  intro v
  rw [get?_eq_some_iff, h]

theorem get?_insert (t : Table κ α) (k k' : κ) (v : α) :
    (t.insert k v).get? k' = if k' = k then some v else t.get? k' := by
  unfold get? insert
  simp only
  induction t.entries with
  | nil =>
    by_cases hk : k' = k
    · simp [placeEntry, hk]
    · simp [placeEntry, hk, Ne.symm hk]
  | cons e es ih =>
    by_cases he : e.1 = k
    · by_cases hk : k' = k
      · simp [placeEntry, he, hk]
      · simp [placeEntry, he, hk, Ne.symm hk]
    · rw [placeEntry, if_neg he]
      by_cases hk' : e.1 = k'
      · simp [hk', show ¬ k' = k from fun h => he (hk'.trans h)]
      · rw [List.find?_cons_of_neg (by simpa using hk'), List.find?_cons_of_neg (by simpa using hk')]
        exact ih

/-- A new key goes to the end. -/
theorem entries_insert_of_notMem {t : Table κ α} {k : κ} (h : k ∉ t.keys) (v : α) :
    (t.insert k v).entries = t.entries ++ [(k, v)] := by
  obtain ⟨es, hd⟩ := t
  change k ∉ es.map Prod.fst at h
  change placeEntry k v es = es ++ [(k, v)]
  clear hd
  induction es with
  | nil => rfl
  | cons e es ih =>
    rw [List.map_cons, List.mem_cons, not_or] at h
    rw [placeEntry, if_neg (Ne.symm h.1), ih h.2, List.cons_append]

theorem get?_filterMap (t : Table κ α) (f : κ → α → Option β) (k : κ) :
    (t.filterMap f).get? k = (t.get? k).bind (f k) := by
  refine ext_get? fun b => ?_
  rw [Option.bind_eq_some_iff]
  simp only [filterMap, List.mem_filterMap, Option.map_eq_some_iff, Prod.mk.injEq]
  constructor
  · rintro ⟨e, he, b, hb, rfl, rfl⟩
    exact ⟨e.2, get?_eq_some_iff.mpr he, hb⟩
  · rintro ⟨v, hv, hb⟩
    exact ⟨(k, v), get?_eq_some_iff.mp hv, b, hb, rfl, rfl⟩

theorem get?_modify (t : Table κ α) (k k' : κ) (f : α → α) :
    (t.modify k f).get? k' = if k' = k then (t.get? k').map f else t.get? k' := by
  refine ext_get? fun v => ?_
  simp only [modify, List.mem_map]
  constructor
  · rintro ⟨e, he, hev⟩
    have hg := get?_eq_some_iff.mpr (show (e.1, e.2) ∈ t.entries from he)
    by_cases hk : e.1 = k
    · rw [if_pos hk, Prod.mk.injEq] at hev
      obtain ⟨rfl, rfl⟩ := hev
      rw [if_pos hk, hg, Option.map_some]
    · rw [if_neg hk] at hev
      subst hev
      rw [if_neg hk, hg]
  · intro h
    by_cases hk : k' = k
    · rw [if_pos hk, Option.map_eq_some_iff] at h
      obtain ⟨w, hw, rfl⟩ := h
      exact ⟨(k', w), get?_eq_some_iff.mp hw, by rw [if_pos hk]⟩
    · rw [if_neg hk] at h
      exact ⟨(k', v), get?_eq_some_iff.mp h, by rw [if_neg hk]⟩

/-- There is at most one entry of a key. -/
theorem filter_entries_eq (t : Table κ α) (k : κ) :
    t.entries.filter (fun e => e.1 = k) = (t.get? k).toList.map fun v => (k, v) := by
  obtain ⟨es, hd⟩ := t
  change es.filter (fun e => e.1 = k) =
    ((es.find? fun e => e.1 = k).map Prod.snd).toList.map fun v => (k, v)
  induction es with
  | nil => rfl
  | cons e es ih =>
    rw [List.map_cons, List.nodup_cons] at hd
    by_cases hk : e.1 = k
    · have hnil : es.filter (fun e => e.1 = k) = [] := by
        rw [List.filter_eq_nil_iff]
        intro e' he' hk'
        exact hd.1 (List.mem_map.mpr ⟨e', he', (of_decide_eq_true hk').trans hk.symm⟩)
      rw [List.filter_cons_of_pos (by simpa using hk), hnil,
        List.find?_cons_of_pos (by simpa using hk), ← hk]
      rfl
    · rw [List.filter_cons_of_neg (by simpa using hk), List.find?_cons_of_neg (by simpa using hk)]
      exact ih hd.2

/-- Of the pairs that arrive for a key the last one is found. -/
theorem get?_foldl_insert (es : List (κ × α)) (t : Table κ α) (k : κ) :
    (es.foldl (fun t e => t.insert e.1 e.2) t).get? k =
      ((es.filter fun e => e.1 = k).getLast?.map Prod.snd).or (t.get? k) := by
  induction es using List.reverseRecOn with
  | nil => simp
  | append_singleton es e ih =>
    rw [List.foldl_append, List.foldl_cons, List.foldl_nil, get?_insert, List.filter_append, ih]
    by_cases hk : e.1 = k
    · simp [hk]
    · simp [hk, Ne.symm hk]

end Table

end BrushLink
