/-!
# Tables in order of first arrival

A specification is full of small maps whose order is seen again in the answer:
the channels of an encoding, the selections of a view, the scales of a tree.
A `Table` keeps its entries in the order in which their keys first arrived;
a later value for a known key takes the place of the earlier one without
moving.  That no key stands twice is part of the type.
-/

namespace BrushLink

/-- Put `v` under `k`: in place if `k` is there, else at the end. -/
def placeEntry {κ α : Type} [DecidableEq κ] (k : κ) (v : α) :
    List (κ × α) → List (κ × α)
  | [] => [(k, v)]
  | e :: es => if e.1 = k then (k, v) :: es else e :: placeEntry k v es

theorem keys_placeEntry {κ α : Type} [DecidableEq κ] (k : κ) (v : α) (es : List (κ × α)) :
    (placeEntry k v es).map Prod.fst =
      if k ∈ es.map Prod.fst then es.map Prod.fst else es.map Prod.fst ++ [k] := by
  induction es with
  | nil => simp [placeEntry]
  | cons e es ih =>
    by_cases h : e.1 = k
    · simp [placeEntry, h]
    · have h' : ¬ k = e.1 := fun he => h he.symm
      simp only [placeEntry, if_neg h, List.map_cons, ih, List.mem_cons, h', false_or]
      split <;> simp

/-- A finite map that lists its entries in the order in which their keys first
arrived. -/
structure Table (κ α : Type) where
  /-- The entries, oldest key first. -/
  entries : List (κ × α)
  /-- No key stands twice. -/
  distinct : (entries.map Prod.fst).Nodup
  deriving DecidableEq

namespace Table

variable {κ α : Type}

/-- The table without entries. -/
def empty : Table κ α := ⟨[], List.Pairwise.nil⟩

instance : EmptyCollection (Table κ α) := ⟨empty⟩

instance : Inhabited (Table κ α) := ⟨empty⟩

/-- The keys, oldest first. -/
def keys (t : Table κ α) : List κ := t.entries.map Prod.fst

/-- The values, in the order of their keys. -/
def values (t : Table κ α) : List α := t.entries.map Prod.snd

/-- How many keys the table has. -/
def size (t : Table κ α) : Nat := t.entries.length

/-- The entries of which `f` makes something, with what it makes. -/
def filterMap {β : Type} (t : Table κ α) (f : κ → α → Option β) : Table κ β where
  entries := t.entries.filterMap fun e => (f e.1 e.2).map fun b => (e.1, b)
  distinct := by
    refine List.Nodup.sublist ?_ t.distinct
    rw [List.map_filterMap]
    induction t.entries with
    | nil => simp
    | cons e es ih =>
      cases h : f e.1 e.2 with
      | none => simpa [h] using ih.cons e.1
      | some b => simpa [h] using ih

section Keyed

variable [DecidableEq κ]

/-- The value under `k`. -/
def get? (t : Table κ α) (k : κ) : Option α :=
  (t.entries.find? fun e => e.1 = k).map Prod.snd

/-- Whether `k` is a key. -/
def contains (t : Table κ α) (k : κ) : Bool := (t.get? k).isSome

/-- Put `v` under `k`.  A known key keeps its position. -/
def insert (t : Table κ α) (k : κ) (v : α) : Table κ α where
  entries := placeEntry k v t.entries
  distinct := by
    rw [keys_placeEntry]
    split
    · exact t.distinct
    · rename_i h
      refine List.nodup_append.mpr ⟨t.distinct, by simp, ?_⟩
      intro a ha b hb
      rw [List.mem_singleton] at hb
      subst hb
      exact fun hab => h (hab ▸ ha)

/-- Put `v` under `k` unless `k` is a key already. -/
def insertNew (t : Table κ α) (k : κ) (v : α) : Table κ α :=
  if t.contains k then t else t.insert k v

/-- Change the value under `k`, if there is one. -/
def modify (t : Table κ α) (k : κ) (f : α → α) : Table κ α where
  entries := t.entries.map fun e => if e.1 = k then (e.1, f e.2) else e
  distinct := by
    rw [List.map_map]
    have : (Prod.fst ∘ fun e : κ × α => if e.1 = k then (e.1, f e.2) else e) = Prod.fst := by
      funext e
      simp only [Function.comp]
      split <;> rfl
    rw [this]
    exact t.distinct

/-- The table that arises when the pairs of a list arrive one after the other. -/
def ofList (es : List (κ × α)) : Table κ α :=
  es.foldl (fun t e => t.insert e.1 e.2) empty

@[simp] theorem keys_insert (t : Table κ α) (k : κ) (v : α) :
    (t.insert k v).keys = if k ∈ t.keys then t.keys else t.keys ++ [k] :=
  keys_placeEntry k v t.entries

@[simp] theorem keys_modify (t : Table κ α) (k : κ) (f : α → α) :
    (t.modify k f).keys = t.keys := by
  simp only [keys, modify, List.map_map]
  congr 1
  funext e
  simp only [Function.comp]
  split <;> rfl

end Keyed

end Table

end BrushLink
