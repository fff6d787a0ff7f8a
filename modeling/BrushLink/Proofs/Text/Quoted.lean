import BrushLink.Text.Quoted
import Mathlib.Data.List.Basic

/-! # Quoted text can be read back

A quoted text ends at its own closing quote: whatever follows it, both the text
and what follows are determined (`quoteChars_append_inj`).  Inside, a quote only
stands after a backslash, so an opening bracket followed by a quote marks where an
index begins (`bracket_quote_inj`).  What stands between the quotes is read piece by
piece as the characters that were written (`pieces?_escaped`, `spell?_map_char`).
-/
namespace BrushLink.Text

/-! ## One character -/

theorem codeUnit?_hexDigits : ∀ n < 32,
    codeUnit? (Nat.digitChar (n / 4096 % 16)) (Nat.digitChar (n / 256 % 16))
      (Nat.digitChar (n / 16 % 16)) (Nat.digitChar (n % 16)) = some n := by
  decide

theorem hexDigits_inj {m n : Nat} (hm : m < 32) (hn : n < 32) (h : hexDigits m = hexDigits n) :
    m = n := by
  have hread := codeUnit?_hexDigits m hm
  simp only [hexDigits, List.cons.injEq, and_true] at h
  obtain ⟨h₁, h₂, h₃, h₄⟩ := h
  rw [h₁, h₂, h₃, h₄, codeUnit?_hexDigits n hn] at hread
  exact (Option.some.inj hread).symm

theorem notMem_hexDigits {c : Char} (hc : ∀ d < 16, Nat.digitChar d ≠ c) (n : Nat) :
    c ∉ hexDigits n := by
  have hdigit : ∀ m, c ≠ Nat.digitChar (m % 16) := fun m =>
    (hc (m % 16) (Nat.mod_lt m (by decide))).symm
  simp [hexDigits, hdigit]

/-- A character is written as it is, by a letter after a backslash, or by its
code. -/
theorem escapeChar_cases (c : Char) :
    (escapeChar c = [c] ∧ c ≠ '"' ∧ c ≠ '\\') ∨
    (∃ x, escapeChar c = ['\\', x] ∧ simpleEscape? x = some c) ∨
    (escapeChar c = '\\' :: 'u' :: hexDigits c.toNat ∧ c.toNat < 32) := by
  unfold escapeChar
  by_cases h₁ : c = '"'
  · exact Or.inr (Or.inl ⟨'"', if_pos h₁, h₁.symm ▸ rfl⟩)
  rw [if_neg h₁]
  by_cases h₂ : c = '\\'
  · exact Or.inr (Or.inl ⟨'\\', if_pos h₂, h₂.symm ▸ rfl⟩)
  rw [if_neg h₂]
  by_cases h₃ : c = '\n'
  · exact Or.inr (Or.inl ⟨'n', if_pos h₃, h₃.symm ▸ rfl⟩)
  rw [if_neg h₃]
  by_cases h₄ : c = '\r'
  · exact Or.inr (Or.inl ⟨'r', if_pos h₄, h₄.symm ▸ rfl⟩)
  rw [if_neg h₄]
  by_cases h₅ : c = '\t'
  · exact Or.inr (Or.inl ⟨'t', if_pos h₅, h₅.symm ▸ rfl⟩)
  rw [if_neg h₅]
  by_cases h₆ : c = '\x08'
  · exact Or.inr (Or.inl ⟨'b', if_pos h₆, h₆.symm ▸ rfl⟩)
  rw [if_neg h₆]
  by_cases h₇ : c = '\x0c'
  · exact Or.inr (Or.inl ⟨'f', if_pos h₇, h₇.symm ▸ rfl⟩)
  rw [if_neg h₇]
  by_cases h₈ : c.toNat < 0x20
  · exact Or.inr (Or.inr ⟨if_pos h₈, h₈⟩)
  · exact Or.inl ⟨if_neg h₈, h₁, h₂⟩

/-- No written character starts with a quote. -/
theorem escapeChar_append_ne_quote (c : Char) (r s : List Char) :
    escapeChar c ++ r ≠ '"' :: s := by
  intro h
  rcases escapeChar_cases c with ⟨he, hq, _⟩ | ⟨x, he, _⟩ | ⟨he, _⟩
  · rw [he] at h
    exact hq (List.cons.inj h).1
  · rw [he] at h
    exact absurd (List.cons.inj h).1 (by decide)
  · rw [he] at h
    exact absurd (List.cons.inj h).1 (by decide)

/-- A bracket is written as it is, and nowhere else written. -/
theorem escapeChar_eq_of_bracket_mem {c : Char} (h : '[' ∈ escapeChar c) :
    escapeChar c = ['['] := by
  rcases escapeChar_cases c with ⟨he, _, _⟩ | ⟨x, he, hx⟩ | ⟨he, _⟩
  · rw [he, List.mem_singleton] at h
    rw [he, h]
  · rw [he] at h
    simp only [List.mem_cons, List.not_mem_nil, or_false] at h
    rcases h with h | rfl
    · exact absurd h (by decide)
    · cases hx
  · rw [he] at h
    simp only [List.mem_cons] at h
    rcases h with h | h | h
    · exact absurd h (by decide)
    · exact absurd h (by decide)
    · exact absurd h (notMem_hexDigits (by decide) _)

/-- What is written first can be told from what follows. -/
theorem escapeChar_append_inj {c d : Char} {r s : List Char}
    (h : escapeChar c ++ r = escapeChar d ++ s) : c = d ∧ r = s := by
  rcases escapeChar_cases c with ⟨hc, _, hcb⟩ | ⟨x, hc, hx⟩ | ⟨hc, hcn⟩ <;>
    rcases escapeChar_cases d with ⟨hd, _, hdb⟩ | ⟨y, hd, hy⟩ | ⟨hd, hdn⟩ <;>
    rw [hc, hd] at h
  · exact List.cons.inj h
  · exact absurd (List.cons.inj h).1 hcb
  · exact absurd (List.cons.inj h).1 hcb
  · exact absurd (List.cons.inj h).1.symm hdb
  · obtain ⟨-, h⟩ := List.cons.inj h
    obtain ⟨rfl, rfl⟩ := List.cons.inj h
    exact ⟨Option.some.inj (hx.symm.trans hy), rfl⟩
  · obtain ⟨-, h⟩ := List.cons.inj h
    obtain ⟨rfl, -⟩ := List.cons.inj h
    cases hx
  · exact absurd (List.cons.inj h).1.symm hdb
  · obtain ⟨-, h⟩ := List.cons.inj h
    obtain ⟨rfl, -⟩ := List.cons.inj h
    cases hy
  · obtain ⟨-, h⟩ := List.cons.inj h
    obtain ⟨-, h⟩ := List.cons.inj h
    obtain ⟨hdigits, rfl⟩ := List.append_inj h rfl
    exact ⟨Char.toNat_inj.mp (hexDigits_inj hcn hdn hdigits), rfl⟩

/-! ## Whole texts -/

theorem escaped_append_inj {cs ds r s : List Char}
    (h : cs.flatMap escapeChar ++ '"' :: r = ds.flatMap escapeChar ++ '"' :: s) :
    cs = ds ∧ r = s := by
  induction cs generalizing ds with
  | nil =>
    cases ds with
    | nil => exact ⟨rfl, (List.cons.inj h).2⟩
    | cons d ds =>
      rw [List.flatMap_cons, List.append_assoc] at h
      exact (escapeChar_append_ne_quote _ _ _ h.symm).elim
  | cons c cs ih =>
    cases ds with
    | nil =>
      rw [List.flatMap_cons, List.append_assoc] at h
      exact (escapeChar_append_ne_quote _ _ _ h).elim
    | cons d ds =>
      rw [List.flatMap_cons, List.flatMap_cons, List.append_assoc, List.append_assoc] at h
      obtain ⟨rfl, hrest⟩ := escapeChar_append_inj h
      obtain ⟨rfl, rfl⟩ := ih hrest
      exact ⟨rfl, rfl⟩

/-- A quoted text and what follows it are both determined. -/
theorem quoteChars_append_inj {cs ds r s : List Char}
    (h : quoteChars cs ++ r = quoteChars ds ++ s) : cs = ds ∧ r = s := by
  simp only [quoteChars, List.cons_append, List.append_assoc, List.nil_append] at h
  exact escaped_append_inj (List.cons.inj h).2

/-- Between the quotes no bracket stands before a quote. -/
theorem escaped_ne_bracket_quote (cs a b : List Char) :
    cs.flatMap escapeChar ≠ a ++ '[' :: '"' :: b := by
  induction cs generalizing a with
  | nil =>
    intro h
    exact absurd h.symm (List.append_ne_nil_of_right_ne_nil _ (List.cons_ne_nil _ _))
  | cons c cs ih =>
    intro h
    rw [List.flatMap_cons] at h
    rcases List.append_eq_append_iff.mp h with ⟨a', rfl, hrest⟩ | ⟨a', hc, hrest⟩
    · exact ih a' hrest
    · cases a' with
      | nil => exact ih [] hrest.symm
      | cons x a' =>
        obtain ⟨rfl, hquote⟩ := List.cons.inj hrest
        -- the bracket is what `c` is written as, so the quote starts the next character
        have hb := escapeChar_eq_of_bracket_mem (show '[' ∈ escapeChar c by rw [hc]; simp)
        obtain rfl : a' = [] := by
          have := congrArg List.length (hb.symm.trans hc)
          simp only [List.length_cons, List.length_append, List.length_nil] at this
          exact List.length_eq_zero_iff.mp (by omega)
        change '"' :: b = cs.flatMap escapeChar at hquote
        cases cs with
        | nil => cases hquote
        | cons d ds =>
          rw [List.flatMap_cons] at hquote
          exact escapeChar_append_ne_quote _ _ _ hquote.symm

/-- Of a text followed by a quoted index both parts are determined. -/
theorem bracket_quote_inj {a b cs ds : List Char}
    (h : a ++ '[' :: (quoteChars cs ++ [']']) = b ++ '[' :: (quoteChars ds ++ [']'])) :
    a = b ∧ cs = ds := by
  -- the longer of the two beginnings would put the bracket into the quoted part of the other
  have key : ∀ {a' es fs : List Char},
      '[' :: (quoteChars es ++ [']']) = a' ++ '[' :: (quoteChars fs ++ [']']) → a' = [] := by
    intro a' es fs h
    cases a' with
    | nil => rfl
    | cons x a' =>
      obtain ⟨-, h⟩ := List.cons.inj h
      cases a' with
      | nil => exact absurd (List.cons.inj h).1 (by decide)
      | cons y a' =>
        exfalso
        obtain ⟨-, h⟩ := List.cons.inj h
        simp only [quoteChars, List.append_assoc, List.cons_append, List.nil_append] at h
        have hsplit : es.flatMap escapeChar ++ ['"', ']'] =
            (a' ++ '[' :: '"' :: fs.flatMap escapeChar) ++ ['"', ']'] := by
          simpa using h
        exact escaped_ne_bracket_quote _ _ _ (List.append_cancel_right hsplit)
  have hab : a = b := by
    rcases List.append_eq_append_iff.mp h with ⟨a', rfl, h'⟩ | ⟨b', rfl, h'⟩
    · rw [key h', List.append_nil]
    · rw [key h', List.append_nil]
  subst hab
  have h' := (List.cons.inj (List.append_cancel_left h)).2
  exact ⟨rfl, (quoteChars_append_inj h').1⟩

/-! ## Reading -/

theorem le_toNat_of_escapeChar {c : Char} (h : escapeChar c = [c]) : 0x20 ≤ c.toNat := by
  by_contra hlt
  have hlength : 1 < (escapeChar c).length := by
    unfold escapeChar
    rw [if_pos (Nat.lt_of_not_le hlt)]
    split_ifs <;> simp
  rw [h] at hlength
  exact absurd hlength (by simp)

theorem Piece.ofUnit_toNat {c : Char} (h : c.toNat < 32) : ofUnit c.toNat = .char c := by
  rw [ofUnit, if_neg (by omega), if_neg (by omega), Char.ofNat_toNat]

/-- What is written for a character is read as one piece. -/
theorem pieces?_escapeChar_append (c : Char) (r : List Char) :
    pieces? (escapeChar c ++ r) = (pieces? r).map (.char c :: ·) := by
  rcases escapeChar_cases c with ⟨he, _, hb⟩ | ⟨x, he, hx⟩ | ⟨he, hc⟩
  · have hplain : ¬ (c = '\\' ∨ c.toNat < 0x20) :=
      not_or.mpr ⟨hb, Nat.not_lt_of_le (le_toNat_of_escapeChar he)⟩
    rw [he, List.singleton_append, pieces?.eq_4 c r (fun _ _ _ _ _ h _ => hb h)
      (fun _ _ h _ => hb h), if_neg hplain]
  · have hu : x ≠ 'u' := by
      rintro rfl
      cases hx
    rw [he, List.cons_append, List.singleton_append,
      pieces?.eq_3 x r (fun _ _ _ _ _ h _ => hu h), hx]
    cases pieces? r <;> rfl
  · rw [he, hexDigits, List.cons_append, List.cons_append, List.cons_append, List.cons_append,
      List.cons_append, List.singleton_append, pieces?, codeUnit?_hexDigits _ hc]
    simp only [Option.bind_eq_bind, Option.bind_some, Piece.ofUnit_toNat hc]
    cases pieces? r <;> rfl

theorem pieces?_escaped (cs : List Char) :
    pieces? (cs.flatMap escapeChar) = some (cs.map .char) := by
  induction cs with
  | nil => rfl
  | cons c cs ih =>
    rw [List.flatMap_cons, pieces?_escapeChar_append, ih, Option.map_some, List.map_cons]

theorem spell?_map_char (cs : List Char) : spell? (cs.map .char) = some cs := by
  induction cs with
  | nil => rfl
  | cons c cs ih => rw [List.map_cons, spell?, ih, Option.map_some]

end BrushLink.Text
