import BrushLink.Signal.Unit
import Mathlib.Data.List.Infix

/-! # The start of a drag

A drag is written `[A, B] > C`, and its start `A` may hold brackets of its own, with commas in
them.  `Drag.SelfContained` says which texts can stand for `A`, by counting brackets alone, and
`Drag.Starts` says that a stream begins with such a text between a bracket and a comma.

The start is found by a scan that keeps count of the open brackets.  `Drag.Passes` is what the
scan does at one character and `Drag.Scans` what it does along a text, both with the count as an
integer, so that nothing but their guards keeps it from falling below zero.  What is true of
one character (`Drag.passes_iff`) gives what is true of a text (`Drag.scans_iff`): the count is
what was opened less what was closed, it is never negative, and a comma is passed only inside
brackets.  The scan stops at the end of the text or at one of two characters outside of brackets
(`Drag.exists_scans_exit`).  Hence it finds the self-contained text before a comma and nothing
else (`Drag.beforeComma?_eq_some_iff`), and this settles which event starts a drag
(`startEvent_exact`).
-/
namespace BrushLink

namespace Drag

/-! ## Texts that can start a drag -/

/-- A text whose brackets balance and whose commas are all in brackets. -/
structure SelfContained (a : List Char) : Prop where
  /-- In the end as many brackets are closed as opened. -/
  balanced : a.count '[' = a.count ']'
  /-- On the way, never more are closed than opened. -/
  opened : ∀ p, p <+: a → p.count ']' ≤ p.count '['
  /-- Before a comma, more are opened than closed. -/
  commas : ∀ p, p ++ [','] <+: a → p.count ']' < p.count '['

/-- A stream begins with a bracket, a self-contained text and a comma. -/
def Starts (stream a : List Char) : Prop :=
  SelfContained a ∧ ∃ rest, stream = '[' :: (a ++ ',' :: rest)

variable {depth last : ℤ} {c : Char} {a b cs stream : List Char}

/-- How many brackets a text opens, less those that it closes. -/
def nesting (cs : List Char) : ℤ := cs.count '[' - cs.count ']'

@[simp] theorem nesting_nil : nesting [] = 0 := rfl

theorem nesting_cons (c : Char) (cs : List Char) :
    nesting (c :: cs) = nesting [c] + nesting cs := by
  rw [← List.singleton_append]
  simp only [nesting, List.count_append]
  omega

theorem nesting_singleton (hopen : c ≠ '[') (hclose : c ≠ ']') : nesting [c] = 0 := by
  rw [nesting, List.count_singleton, List.count_singleton]
  simp [hopen, hclose]

/-- From a depth on, a text closes only what is open and has its commas in brackets. -/
structure Guarded (depth : ℤ) (a : List Char) : Prop where
  opened : ∀ p, p <+: a → 0 ≤ depth + nesting p
  commas : ∀ p, p ++ [','] <+: a → 0 < depth + nesting p

theorem Guarded.depth_nonneg (h : Guarded depth a) : 0 ≤ depth := by
  simpa using h.opened [] List.nil_prefix

theorem guarded_nil : Guarded depth [] ↔ 0 ≤ depth := by
  constructor
  · exact Guarded.depth_nonneg
  · intro h
    exact ⟨by simpa using h, by simp⟩

theorem guarded_cons : Guarded depth (c :: a) ↔
    0 ≤ depth ∧ (c = ',' → 0 < depth) ∧ Guarded (depth + nesting [c]) a := by
  have hshift : ∀ p, depth + nesting (c :: p) = depth + nesting [c] + nesting p := by
    intro p
    rw [nesting_cons, Int.add_assoc]
  constructor
  · intro h
    refine ⟨h.depth_nonneg, ?_, ?_, ?_⟩
    · rintro rfl
      simpa using h.commas [] (List.prefix_append [','] a)
    · intro p hp
      rw [← hshift]
      exact h.opened (c :: p) (List.cons_prefix_cons.mpr ⟨rfl, hp⟩)
    · intro p hp
      rw [← hshift]
      exact h.commas (c :: p) (List.cons_prefix_cons.mpr ⟨rfl, hp⟩)
  · rintro ⟨hdepth, hcomma, h⟩
    constructor
    · intro p hp
      rcases List.prefix_cons_iff.mp hp with rfl | ⟨q, rfl, hq⟩
      · simpa using hdepth
      · rw [hshift]
        exact h.opened q hq
    · intro p hp
      cases p with
      | nil =>
        have hc : ',' = c := (List.cons_prefix_cons.mp hp).1
        simpa using hcomma hc.symm
      | cons d q =>
        obtain ⟨rfl, hq⟩ := List.cons_prefix_cons.mp hp
        rw [hshift]
        exact h.commas q hq

theorem selfContained_iff : SelfContained a ↔ nesting a = 0 ∧ Guarded 0 a := by
  have hzero : nesting a = 0 ↔ a.count '[' = a.count ']' := by
    rw [nesting]
    omega
  have hnonneg : ∀ p, 0 ≤ 0 + nesting p ↔ p.count ']' ≤ p.count '[' := by
    intro p
    rw [nesting]
    omega
  have hpos : ∀ p, 0 < 0 + nesting p ↔ p.count ']' < p.count '[' := by
    intro p
    rw [nesting]
    omega
  constructor
  · intro h
    exact ⟨hzero.mpr h.balanced, fun p hp => (hnonneg p).mpr (h.opened p hp),
      fun p hp => (hpos p).mpr (h.commas p hp)⟩
  · rintro ⟨hbalanced, h⟩
    exact ⟨hzero.mp hbalanced, fun p hp => (hnonneg p).mp (h.opened p hp),
      fun p hp => (hpos p).mp (h.commas p hp)⟩

/-! ## The scan -/

/-- The scan reads a character at one depth and goes on at another. -/
inductive Passes : ℤ → Char → ℤ → Prop
  | opening (depth : ℤ) : Passes depth '[' (depth + 1)
  | closing {depth : ℤ} (hinside : depth ≠ 0) : Passes depth ']' (depth - 1)
  | other {depth : ℤ} {c : Char} (hopen : c ≠ '[') (hclose : c ≠ ']')
      (hinside : c = ',' → depth ≠ 0) : Passes depth c depth

/-- The scan reads a text from one depth on and comes out at another. -/
inductive Scans : ℤ → List Char → ℤ → Prop
  | nil (depth : ℤ) : Scans depth [] depth
  | cons {depth next last : ℤ} {c : Char} {cs : List Char} (hc : Passes depth c next)
      (hcs : Scans next cs last) : Scans depth (c :: cs) last

/-- What one character does: the depth follows the brackets, stays clear of the negative
numbers, and is positive at a comma. -/
theorem passes_iff (hdepth : 0 ≤ depth) :
    Passes depth c last ↔ last = depth + nesting [c] ∧ 0 ≤ last ∧ (c = ',' → 0 < depth) := by
  constructor
  · intro h
    cases h with
    | opening => exact ⟨rfl, by omega, fun hcomma => absurd hcomma (by decide)⟩
    | closing hinside => exact ⟨rfl, by omega, fun hcomma => absurd hcomma (by decide)⟩
    | other hopen hclose hinside =>
      refine ⟨by rw [nesting_singleton hopen hclose, Int.add_zero], hdepth, fun hcomma => ?_⟩
      have := hinside hcomma
      omega
  · rintro ⟨rfl, hlast, hcomma⟩
    by_cases hopen : c = '['
    · subst hopen
      exact .opening depth
    by_cases hclose : c = ']'
    · subst hclose
      have hinside : depth ≠ 0 := by
        rintro rfl
        exact absurd hlast (by decide)
      exact .closing hinside
    · rw [nesting_singleton hopen hclose, Int.add_zero]
      exact .other hopen hclose fun he => Int.ne_of_gt (hcomma he)

/-- What a text does: the depth follows the brackets, stays clear of the negative numbers all
the way, and is positive at each comma. -/
theorem scans_iff (hdepth : 0 ≤ depth) :
    Scans depth a last ↔ last = depth + nesting a ∧ Guarded depth a := by
  induction a generalizing depth with
  | nil =>
    rw [guarded_nil, nesting_nil, Int.add_zero, and_iff_left hdepth]
    constructor
    · rintro ⟨⟩
      rfl
    · rintro rfl
      exact .nil _
  | cons c a ih =>
    rw [guarded_cons, nesting_cons, ← Int.add_assoc]
    constructor
    · intro h
      cases h with
      | cons hc ha =>
        obtain ⟨rfl, hnext, hcomma⟩ := (passes_iff hdepth).mp hc
        obtain ⟨hlast, hguarded⟩ := (ih hnext).mp ha
        exact ⟨hlast, hdepth, hcomma, hguarded⟩
    · rintro ⟨hlast, _, hcomma, hguarded⟩
      have hnext := hguarded.depth_nonneg
      exact .cons ((passes_iff hdepth).mpr ⟨rfl, hnext, hcomma⟩) ((ih hnext).mpr ⟨hlast, hguarded⟩)

theorem selfContained_iff_scans : SelfContained a ↔ Scans 0 a 0 := by
  rw [scans_iff (Int.le_refl 0), selfContained_iff, Int.zero_add, eq_comm]

/-- The depth of a scan is the number of brackets opened less those closed, and never falls
below zero. -/
theorem Scans.depth_eq (h : Scans 0 a depth) : depth = nesting a ∧ 0 ≤ depth := by
  obtain ⟨hdepth, hguarded⟩ := (scans_iff (Int.le_refl 0)).mp h
  have hopened := hguarded.opened a (List.prefix_refl a)
  rw [Int.zero_add] at hdepth hopened
  exact ⟨hdepth, hdepth ▸ hopened⟩

/-! ## What the scan finds -/

/-- Where the scan reads on, so does the search for a comma. -/
theorem Passes.beforeComma?_cons (h : Passes depth c last) (hdepth : 0 ≤ depth) (cs : List Char) :
    beforeComma? depth.toNat (c :: cs) = (beforeComma? last.toNat cs).map (c :: ·) := by
  obtain ⟨d, rfl⟩ := Int.eq_ofNat_of_zero_le hdepth
  cases h with
  | opening => rfl
  | closing hinside =>
    cases d with
    | zero => exact absurd rfl hinside
    | succ d =>
      have hlast : ((d + 1 : Nat) - 1 : ℤ).toNat = d := by omega
      rw [hlast]
      rfl
  | other hopen hclose hinside =>
    have hcomma : ¬ (c = ',' ∧ d = 0) := by
      rintro ⟨he, rfl⟩
      exact hinside he rfl
    rw [Int.toNat_natCast, beforeComma?.eq_def]
    simp only [if_neg hopen, if_neg hclose, if_neg hcomma]

theorem Scans.beforeComma?_append (h : Scans depth a last) (hdepth : 0 ≤ depth)
    (cs : List Char) :
    beforeComma? depth.toNat (a ++ cs) = (beforeComma? last.toNat cs).map (a ++ ·) := by
  induction h with
  | nil => exact Option.map_id'.symm
  | cons hc _ ih =>
    rw [List.cons_append, hc.beforeComma?_cons hdepth, ih ((passes_iff hdepth).mp hc).2.1,
      Option.map_map]
    rfl

theorem exists_passes_or (depth : ℤ) (c : Char) :
    (∃ next, Passes depth c next) ∨ depth = 0 ∧ (c = ']' ∨ c = ',') := by
  by_cases hexit : depth = 0 ∧ (c = ']' ∨ c = ',')
  · exact Or.inr hexit
  refine Or.inl ?_
  by_cases hopen : c = '['
  · subst hopen
    exact ⟨_, .opening depth⟩
  by_cases hclose : c = ']'
  · subst hclose
    exact ⟨_, .closing fun h => hexit ⟨h, Or.inl rfl⟩⟩
  · exact ⟨_, .other hopen hclose fun he h => hexit ⟨h, Or.inr he⟩⟩

/-- The scan reads on until the text ends or, outside of brackets, a bracket closes or a comma
comes. -/
theorem exists_scans_exit (depth : ℤ) (cs : List Char) :
    ∃ a rest last, cs = a ++ rest ∧ Scans depth a last ∧
      (rest = [] ∨ last = 0 ∧ ∃ c rest', rest = c :: rest' ∧ (c = ']' ∨ c = ',')) := by
  induction cs generalizing depth with
  | nil => exact ⟨[], [], depth, rfl, .nil depth, Or.inl rfl⟩
  | cons c cs ih =>
    rcases exists_passes_or depth c with ⟨next, hc⟩ | ⟨hdepth, hexit⟩
    · obtain ⟨a, rest, last, rfl, ha, hexit⟩ := ih next
      exact ⟨c :: a, rest, last, rfl, .cons hc ha, hexit⟩
    · exact ⟨[], c :: cs, depth, rfl, .nil depth, Or.inr ⟨hdepth, c, cs, rfl, hexit⟩⟩

/-- The search for a comma finds the self-contained text before it, and nothing else. -/
theorem beforeComma?_eq_some_iff :
    beforeComma? 0 cs = some a ↔ SelfContained a ∧ ∃ rest, cs = a ++ ',' :: rest := by
  rw [selfContained_iff_scans]
  constructor
  · intro h
    obtain ⟨read, rest, last, rfl, hread, hexit⟩ := exists_scans_exit 0 cs
    rw [← Int.toNat_zero, hread.beforeComma?_append (Int.le_refl 0)] at h
    obtain ⟨b, hb, rfl⟩ := Option.map_eq_some_iff.mp h
    -- of the three exits only the comma gives a result
    rcases hexit with rfl | ⟨rfl, c, rest', rfl, rfl | rfl⟩
    · cases hb
    · cases hb
    · cases hb
      rw [List.append_nil]
      exact ⟨hread, rest', rfl⟩
  · rintro ⟨ha, rest, rfl⟩
    rw [← Int.toNat_zero, ha.beforeComma?_append (Int.le_refl 0)]
    exact congrArg some (List.append_nil a)

theorem starts_iff :
    Starts stream a ↔ ∃ rest, stream = '[' :: rest ∧ beforeComma? 0 rest = some a := by
  constructor
  · rintro ⟨ha, rest, rfl⟩
    exact ⟨_, rfl, beforeComma?_eq_some_iff.mpr ⟨ha, rest, rfl⟩⟩
  · rintro ⟨_, rfl, hfound⟩
    obtain ⟨ha, rest, rfl⟩ := beforeComma?_eq_some_iff.mp hfound
    exact ⟨ha, rest, rfl⟩

theorem Starts.unique (ha : Starts stream a) (hb : Starts stream b) : a = b := by
  obtain ⟨rest, rfl, hfound⟩ := starts_iff.mp ha
  obtain ⟨_, he, hfound'⟩ := starts_iff.mp hb
  cases he
  exact Option.some.inj (hfound.symm.trans hfound')

/-! ## The event that starts a drag -/

theorem Starts.startEventChars_eq (h : Starts (Text.trim stream) a) :
    startEventChars stream = Text.trim a := by
  obtain ⟨rest, hstream, hfound⟩ := starts_iff.mp h
  simp only [startEventChars, hstream, hfound]

theorem startEventChars_of_forall_not (h : ∀ a, ¬ Starts (Text.trim stream) a) :
    startEventChars stream = Text.trim stream := by
  rw [startEventChars]
  split
  · rename_i rest hstream
    cases hfound : beforeComma? 0 rest with
    | none => rfl
    | some a => exact absurd (starts_iff.mpr ⟨rest, hstream, hfound⟩) (h a)
  · rfl

end Drag

/-- **The event that starts a drag.**  If a stream without its padding begins with a bracket, a
self-contained text and a comma, there is only one such text, and it is the event, again without
padding; any other stream is the event as a whole.  Wherever the scan has come to, its depth is
the number of brackets opened less those closed, which is not negative, and from there the
search for the comma goes on. -/
theorem startEvent_exact (e : String) :
    (∀ a, Drag.Starts (Text.trim e.toList) a → startEvent e = String.ofList (Text.trim a)) ∧
    ((∀ a, ¬ Drag.Starts (Text.trim e.toList) a) →
      startEvent e = String.ofList (Text.trim e.toList)) ∧
    (∀ a b, Drag.Starts (Text.trim e.toList) a → Drag.Starts (Text.trim e.toList) b → a = b) ∧
    ∀ read left depth, Text.trim e.toList = '[' :: (read ++ left) → Drag.Scans 0 read depth →
      depth = read.count '[' - read.count ']' ∧ 0 ≤ depth ∧
      beforeComma? 0 (read ++ left) = (beforeComma? depth.toNat left).map (read ++ ·) := by
  refine ⟨?_, ?_, fun _ _ ha hb => ha.unique hb, ?_⟩
  · intro a ha
    rw [startEvent, ha.startEventChars_eq]
  · intro h
    rw [startEvent, Drag.startEventChars_of_forall_not h]
  · intro read left depth _ hread
    obtain ⟨hdepth, hnonneg⟩ := hread.depth_eq
    exact ⟨hdepth, hnonneg, hread.beforeComma?_append (Int.le_refl 0) left⟩

/-- A start with a comma in a filter of its own, and a stream whose only comma comes after its
bracket has closed. -/
theorem startEvent_exact_filtered :
    startEvent " [down[a, b], up] > move" = "down[a, b]" ∧
    startEvent "[down] > move, up " = "[down] > move, up" ∧
    (∀ a, Drag.Starts (Text.trim " [down[a, b], up] > move".toList) a →
      a = "down[a, b]".toList) ∧
    Drag.Scans 0 "d[".toList 1 ∧
    beforeComma? 0 "d[a], up]".toList =
      (beforeComma? 1 "a], up]".toList).map ("d[".toList ++ ·) := by
  have hfiltered : Drag.Starts (Text.trim " [down[a, b], up] > move".toList)
      "down[a, b]".toList := Drag.starts_iff.mpr ⟨_, rfl, by decide⟩
  have hclosed : ∀ a, ¬ Drag.Starts (Text.trim "[down] > move, up ".toList) a := by
    intro a ha
    obtain ⟨rest, hrest, hfound⟩ := Drag.starts_iff.mp ha
    cases hrest
    cases hfound
  have hread : Drag.Scans 0 "d[".toList 1 :=
    .cons (.other (by decide) (by decide) (by decide)) (.cons (.opening 0) (.nil 1))
  refine ⟨(startEvent_exact _).1 _ hfiltered, (startEvent_exact _).2.1 hclosed, ?_, hread, ?_⟩
  · intro a ha
    exact (startEvent_exact _).2.2.1 _ _ ha hfiltered
  · exact ((startEvent_exact "[d[a], up]").2.2.2 _ "a], up]".toList 1 rfl hread).2.2

end BrushLink
