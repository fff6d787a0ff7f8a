import BrushLink.Json.Printer
import BrushLink.Json.Source
import BrushLink.Proofs.Number.Decimal
import BrushLink.Proofs.Text.Quoted

/-! # Written values can be read back

The text of a value is taken apart into its tokens, and the tokens are put together to the
value again, whether the text is compact or indented (`read?_compact`, `read?_indented`).

The scanner is followed from between two tokens to between two tokens (`Scans`).  At the end
of a number or a word it cannot know yet that the token is over, so texts are put one after
the other only where the second starts with a character that ends both (`Scans.append`).
The reader is followed from where it waits for a value to where the value is there
(`foldlM_tokens`), within whatever containers are open.
-/
namespace BrushLink.Json

/-! ## Tokens of a value -/

mutual

/-- The tokens of a value. -/
def tokens : Json → List Token
  | .null => [.null]
  | .bool b => [.bool b]
  | .number n => [.number (some n)]
  | .string s => [.string (some s)]
  | .array [] => [.openBracket, .closeBracket]
  | .array (x :: xs) => .openBracket :: (tokens x ++ tokensElements xs)
  | .object [] => [.openBrace, .closeBrace]
  | .object ((k, v) :: ms) =>
    .openBrace :: .string (some k) :: .colon :: (tokens v ++ tokensMembers ms)

/-- The tokens of the elements after the first, and the closing bracket. -/
def tokensElements : List Json → List Token
  | [] => [.closeBracket]
  | x :: xs => .comma :: (tokens x ++ tokensElements xs)

/-- The tokens of the members after the first, and the closing brace. -/
def tokensMembers : List (String × Json) → List Token
  | [] => [.closeBrace]
  | (k, v) :: ms => .comma :: .string (some k) :: .colon :: (tokens v ++ tokensMembers ms)

end

/-! ## The reader -/

/-- The first element of an array is read like any other value. -/
theorem foldlM_tokens_arrayStart (v : Json) (stack : List Frame) :
    v.tokens.foldlM Reader.step (.arrayStart stack) =
      v.tokens.foldlM Reader.step (.value (.array [] :: stack)) := by
  match v with
  | .null | .bool _ | .number _ | .string _ => rfl
  | .array [] | .object [] => rfl
  | .array (x :: xs) => rw [tokens]; rfl
  | .object ((k, x) :: ms) => rw [tokens]; rfl

mutual

/-- Where a value is expected, the tokens of a value are read as that value. -/
theorem foldlM_tokens (v : Json) (stack : List Frame) :
    v.tokens.foldlM Reader.step (.value stack) = some (.after v.toSource stack) := by
  match v with
  | .null | .bool _ | .number _ | .string _ => rfl
  | .array [] | .object [] => rfl
  | .array (x :: xs) =>
    have hread : (tokens x ++ tokensElements xs).foldlM Reader.step (.arrayStart stack) =
        some (.after (.array (x.toSource :: toSourceElements xs)) stack) := by
      rw [List.foldlM_append, foldlM_tokens_arrayStart, foldlM_tokens x]
      exact foldlM_tokensElements xs x.toSource [] stack
    rw [tokens, toSource]
    exact hread
  | .object ((k, x) :: ms) =>
    have hread : (tokens x ++ tokensMembers ms).foldlM Reader.step
        (.value (.object [] (some k) :: stack)) =
        some (.after (.object ((some k, x.toSource) :: toSourceMembers ms)) stack) := by
      rw [List.foldlM_append, foldlM_tokens x]
      exact foldlM_tokensMembers ms (some k) x.toSource [] stack
    rw [tokens, toSource]
    exact hread

theorem foldlM_tokensElements (xs : List Json) (y : Source) (done : List Source)
    (stack : List Frame) :
    (tokensElements xs).foldlM Reader.step (.after y (.array done :: stack)) =
      some (.after (.array ((y :: done).reverse ++ toSourceElements xs)) stack) := by
  match xs with
  | [] =>
    rw [toSourceElements, List.append_nil]
    rfl
  | x :: xs =>
    have hread : (tokens x ++ tokensElements xs).foldlM Reader.step
        (.value (.array (y :: done) :: stack)) =
        some (.after (.array ((x.toSource :: y :: done).reverse ++
          toSourceElements xs)) stack) := by
      rw [List.foldlM_append, foldlM_tokens x]
      exact foldlM_tokensElements xs x.toSource (y :: done) stack
    -- the value before the comma joins those that are done
    rw [tokensElements, toSourceElements, List.append_cons, ← List.reverse_cons]
    exact hread

theorem foldlM_tokensMembers (ms : List (String × Json)) (k : Option String) (y : Source)
    (done : List (Option String × Source)) (stack : List Frame) :
    (tokensMembers ms).foldlM Reader.step (.after y (.object done k :: stack)) =
      some (.after (.object (((k, y) :: done).reverse ++ toSourceMembers ms)) stack) := by
  match ms with
  | [] =>
    rw [toSourceMembers, List.append_nil]
    rfl
  | (l, x) :: ms =>
    have hread : (tokens x ++ tokensMembers ms).foldlM Reader.step
        (.value (.object ((k, y) :: done) (some l) :: stack)) =
        some (.after (.object (((some l, x.toSource) :: (k, y) :: done).reverse ++
          toSourceMembers ms)) stack) := by
      rw [List.foldlM_append, foldlM_tokens x]
      exact foldlM_tokensMembers ms (some l) x.toSource ((k, y) :: done) stack
    rw [tokensMembers, toSourceMembers, List.append_cons, ← List.reverse_cons]
    exact hread

end

/-! ## The scanner -/

/-- Whether a character ends a number and a word before it. -/
def endsToken (c : Char) : Bool := !inNumber c && !c.isAlpha

/-- A text that is scanned, from between two tokens, as the given tokens.  A number or a word
at its end may still go on. -/
def Scans (cs : List Char) (ts : List Token) : Prop :=
  ∀ done, ∃ s, cs.foldlM Scanner.step ⟨.between, done⟩ = some s ∧
    s.finish = some ⟨.between, ts.reverse ++ done⟩

theorem Scanner.step_of_finish {s : Scanner} {done : List Token} {c : Char}
    (h : s.finish = some ⟨.between, done⟩) (hc : endsToken c = true) :
    s.step c = step ⟨.between, done⟩ c := by
  obtain ⟨mode, tokens⟩ := s
  obtain ⟨hnumber, hword⟩ := Bool.and_eq_true_iff.mp hc
  rw [Bool.not_eq_true'] at hnumber hword
  cases mode with
  | between =>
    cases h
    rfl
  | number seen =>
    simp only [step, hnumber, Bool.false_eq_true, if_false, h, Option.bind_some]
  | word seen =>
    simp only [step, hword, Bool.false_eq_true, if_false, h, Option.bind_some]
  | string seen => cases h
  | escape seen => cases h

/-- Characters of a token that goes on with each of them are held last first. -/
theorem Scanner.foldlM_collect (mode : List Char → Mode) {cs : List Char}
    (h : ∀ c ∈ cs, ∀ seen done, step ⟨mode seen, done⟩ c = some ⟨mode (c :: seen), done⟩)
    (seen : List Char) (done : List Token) :
    cs.foldlM step ⟨mode seen, done⟩ = some ⟨mode (cs.reverse ++ seen), done⟩ := by
  induction cs generalizing seen with
  | nil => rfl
  | cons c cs ih =>
    rw [List.foldlM_cons, h c List.mem_cons_self, List.reverse_cons, List.append_assoc]
    exact ih (fun d hd => h d (List.mem_cons_of_mem c hd)) (c :: seen)

namespace Scans
variable {cs ds : List Char} {ts us : List Token} {c : Char}

theorem append (h : Scans cs ts) (h' : Scans ds us) (hd : ds.head?.all endsToken = true) :
    Scans (cs ++ ds) (ts ++ us) := by
  intro done
  obtain ⟨s, hs, hfinish⟩ := h done
  obtain ⟨s', hs', hfinish'⟩ := h' (ts.reverse ++ done)
  rw [List.foldlM_append, hs, List.reverse_append, List.append_assoc]
  cases ds with
  | nil =>
    cases hs'
    exact ⟨s, rfl, hfinish.trans hfinish'⟩
  | cons d ds =>
    refine ⟨s', ?_, hfinish'⟩
    -- the first character of what follows finishes what is still open
    change (d :: ds).foldlM Scanner.step s = _
    rw [← hs', List.foldlM_cons, List.foldlM_cons,
      Scanner.step_of_finish hfinish hd]

/-- A mark that is a token on its own. -/
theorem mark {t : Token} (hc : ∀ s : Scanner, s.enter c = some (s.push t)) (h : Scans cs ts) :
    Scans (c :: cs) (t :: ts) := by
  intro done
  obtain ⟨s, hs, hfinish⟩ := h (t :: done)
  refine ⟨s, ?_, ?_⟩
  · rw [List.foldlM_cons]
    simp only [Scanner.step, hc]
    exact hs
  · rw [hfinish, List.reverse_cons, List.append_assoc]
    rfl

theorem blank (hc : isSpace c = true) (h : Scans cs ts) : Scans (c :: cs) ts := by
  intro done
  obtain ⟨s, hs, hfinish⟩ := h done
  refine ⟨s, ?_, hfinish⟩
  rw [List.foldlM_cons]
  simp only [Scanner.step, Scanner.enter, hc, if_true]
  exact hs

theorem blanks (hcs : ∀ c ∈ cs, isSpace c = true) (h : Scans ds ts) : Scans (cs ++ ds) ts := by
  induction cs with
  | nil => exact h
  | cons c cs ih =>
    exact (ih fun d hd => hcs d (List.mem_cons_of_mem c hd)).blank (hcs c List.mem_cons_self)

end Scans

/-! ## Texts of values -/

theorem Scanner.enter_number {c : Char} (hc : c.isDigit = true ∨ c = '-') (s : Scanner) :
    s.enter c = some ⟨.number [c], s.tokens⟩ := by
  have hspace : isSpace c = false := by
    by_contra h
    simp only [isSpace, Bool.not_eq_false, Bool.or_eq_true, decide_eq_true_eq] at h
    rcases h with ((rfl | rfl) | rfl) | rfl <;> exact absurd hc (by decide)
  have hquote : c ≠ '"' := by
    rintro rfl
    exact absurd hc (by decide)
  rw [enter, hspace, if_neg Bool.false_ne_true, if_neg hquote,
    if_pos (by simpa using hc)]

theorem scans_number {n : Number} (h : n.isWord = true) : Scans n.toChars [.number (some n)] := by
  obtain ⟨l, hl, hvalue⟩ := Number.parse?_toChars h
  obtain ⟨c, cs, hchars, hc, hcs⟩ := Number.toChars_eq_cons h
  intro done
  have hstep : ∀ d ∈ cs, ∀ seen done,
      Scanner.step ⟨.number seen, done⟩ d = some ⟨.number (d :: seen), done⟩ := by
    intro d hd seen done
    simp [Scanner.step, inNumber, hcs d hd]
  refine ⟨⟨.number (cs.reverse ++ [c]), done⟩, ?_, ?_⟩
  · rw [hchars, List.foldlM_cons]
    simp only [Scanner.step, Scanner.enter_number hc]
    exact Scanner.foldlM_collect .number hstep [c] done
  · have htoken : Token.ofNumber? (c :: cs) = some (.number (some n)) := by
      rw [Token.ofNumber?, ← hchars, hl, Option.map_some, hvalue]
    simp only [Scanner.finish, List.reverse_append, List.reverse_reverse, List.reverse_singleton,
      List.singleton_append, htoken]
    rfl

/-- In a string, what is written for a character keeps the scanner in the string. -/
theorem foldlM_escapeChar (c : Char) (seen : List Char) (done : List Token) :
    (Text.escapeChar c).foldlM Scanner.step ⟨.string seen, done⟩ =
      some ⟨.string ((Text.escapeChar c).reverse ++ seen), done⟩ := by
  have hplain : ∀ d, d ≠ '"' ∧ d ≠ '\\' → ∀ seen done,
      Scanner.step ⟨.string seen, done⟩ d = some ⟨.string (d :: seen), done⟩ := by
    rintro d ⟨hquote, hbackslash⟩ seen done
    simp [Scanner.step, hquote, hbackslash]
  rcases Text.escapeChar_cases c with ⟨he, hc⟩ | ⟨x, he, _⟩ | ⟨he, _⟩
  · rw [he, List.foldlM_cons, hplain c hc]
    rfl
  · rw [he]
    rfl
  · rw [he, List.reverse_cons, List.reverse_cons, List.append_assoc, List.append_assoc]
    refine Scanner.foldlM_collect .string (fun d hd => hplain d ⟨?_, ?_⟩) ('u' :: '\\' :: seen) done
    · rintro rfl
      exact Text.notMem_hexDigits (by decide) _ hd
    · rintro rfl
      exact Text.notMem_hexDigits (by decide) _ hd

theorem foldlM_escaped (cs seen : List Char) (done : List Token) :
    (cs.flatMap Text.escapeChar).foldlM Scanner.step ⟨.string seen, done⟩ =
      some ⟨.string ((cs.flatMap Text.escapeChar).reverse ++ seen), done⟩ := by
  induction cs generalizing seen with
  | nil => rfl
  | cons c cs ih =>
    rw [List.flatMap_cons, List.foldlM_append, foldlM_escapeChar, List.reverse_append,
      List.append_assoc]
    exact ih _

theorem scans_quoteChars (s : String) :
    Scans (Text.quoteChars s.toList) [.string (some s)] := by
  have hquoted : Token.ofQuoted? (s.toList.flatMap Text.escapeChar) = some (.string (some s)) := by
    rw [Token.ofQuoted?, Text.pieces?_escaped, Option.map_some, Text.spell?_map_char,
      Option.map_some, String.ofList_toList]
  intro done
  have hopen : Scanner.step ⟨.between, done⟩ '"' = some ⟨.string [], done⟩ := rfl
  have hclose : Scanner.step ⟨.string (s.toList.flatMap Text.escapeChar).reverse, done⟩ '"' =
      some ⟨.between, .string (some s) :: done⟩ := by
    simp only [Scanner.step, if_true, List.reverse_reverse, hquoted, Option.map_some]
    rfl
  refine ⟨⟨.between, .string (some s) :: done⟩, ?_, rfl⟩
  simp only [Text.quoteChars, List.foldlM_cons, hopen, Option.bind_eq_bind, Option.bind_some,
    List.foldlM_append, foldlM_escaped, List.append_nil, hclose, List.foldlM_nil]
  rfl

theorem endsToken_charsElements (xs : List Json) :
    (charsElements xs).head?.all endsToken = true := by
  cases xs <;> rfl

theorem endsToken_charsMembers (ms : List (String × Json)) :
    (charsMembers ms).head?.all endsToken = true := by
  cases ms <;> rfl

mutual

/-- Whether all numbers of a value are whole and fit a word. -/
def wholeNumbers : Json → Bool
  | .null => true
  | .bool _ => true
  | .number n => n.isWord
  | .string _ => true
  | .array xs => wholeElements xs
  | .object ms => wholeMembers ms

/-- Whether all numbers of the elements of an array are whole and fit a word. -/
def wholeElements : List Json → Bool
  | [] => true
  | x :: xs => wholeNumbers x && wholeElements xs

/-- Whether all numbers of the members of an object are whole and fit a word. -/
def wholeMembers : List (String × Json) → Bool
  | [] => true
  | (_, x) :: ms => wholeNumbers x && wholeMembers ms

end

/-- A name, a colon and a value, and whatever comes then. -/
theorem Scans.member {k : String} {cs ds : List Char} {ts us : List Token} (h : Scans cs ts)
    (h' : Scans ds us) (hd : ds.head?.all endsToken = true) :
    Scans (Text.quoteChars k.toList ++ ':' :: (cs ++ ds))
      (.string (some k) :: .colon :: (ts ++ us)) :=
  (scans_quoteChars k).append ((h.append h' hd).mark fun _ => rfl) rfl

mutual

theorem scans_chars (v : Json) (h : v.wholeNumbers = true) : Scans v.chars v.tokens := by
  match v with
  | .null => exact fun _ => ⟨_, rfl, rfl⟩
  | .bool true => exact fun _ => ⟨_, rfl, rfl⟩
  | .bool false => exact fun _ => ⟨_, rfl, rfl⟩
  | .number n => exact scans_number h
  | .string s => exact scans_quoteChars s
  | .array [] => exact fun _ => ⟨_, rfl, rfl⟩
  | .object [] => exact fun _ => ⟨_, rfl, rfl⟩
  | .array (x :: xs) =>
    obtain ⟨hx, hxs⟩ := Bool.and_eq_true_iff.mp h
    rw [chars, tokens]
    exact ((scans_chars x hx).append (scans_charsElements xs hxs)
      (endsToken_charsElements xs)).mark fun _ => rfl
  | .object ((k, x) :: ms) =>
    obtain ⟨hx, hms⟩ := Bool.and_eq_true_iff.mp h
    rw [chars, tokens]
    exact (Scans.member (scans_chars x hx) (scans_charsMembers ms hms)
      (endsToken_charsMembers ms)).mark fun _ => rfl

theorem scans_charsElements (xs : List Json) (h : wholeElements xs = true) :
    Scans (charsElements xs) (tokensElements xs) := by
  match xs with
  | [] => exact fun _ => ⟨_, rfl, rfl⟩
  | x :: xs =>
    obtain ⟨hx, hxs⟩ := Bool.and_eq_true_iff.mp h
    rw [charsElements, tokensElements]
    exact ((scans_chars x hx).append (scans_charsElements xs hxs)
      (endsToken_charsElements xs)).mark fun _ => rfl

theorem scans_charsMembers (ms : List (String × Json)) (h : wholeMembers ms = true) :
    Scans (charsMembers ms) (tokensMembers ms) := by
  match ms with
  | [] => exact fun _ => ⟨_, rfl, rfl⟩
  | (k, x) :: ms =>
    obtain ⟨hx, hms⟩ := Bool.and_eq_true_iff.mp h
    rw [charsMembers, tokensMembers]
    exact (Scans.member (scans_chars x hx) (scans_charsMembers ms hms)
      (endsToken_charsMembers ms)).mark fun _ => rfl

end

theorem isSpace_newLine (level : Nat) : ∀ c ∈ newLine level, isSpace c = true := by
  intro c hc
  rcases List.mem_cons.mp hc with rfl | hc
  · rfl
  · obtain rfl := List.eq_of_mem_replicate hc
    rfl

theorem endsToken_indentedElements (level : Nat) (xs : List Json) :
    (indentedElements level xs).head?.all endsToken = true := by
  cases xs <;> rfl

theorem endsToken_indentedMembers (level : Nat) (ms : List (String × Json)) :
    (indentedMembers level ms).head?.all endsToken = true := by
  cases ms <;> rfl

mutual

theorem scans_indentedChars (level : Nat) (v : Json) (h : v.wholeNumbers = true) :
    Scans (v.indentedChars level) v.tokens := by
  match v with
  | .null | .bool _ | .number _ | .string _ | .array [] | .object [] => exact scans_chars _ h
  | .array (x :: xs) =>
    obtain ⟨hx, hxs⟩ := Bool.and_eq_true_iff.mp h
    have hrest := (scans_indentedChars (level + 1) x hx).append
      (scans_indentedElements level xs hxs) (endsToken_indentedElements level xs)
    rw [indentedChars, tokens]
    exact (hrest.blanks (isSpace_newLine (level + 1))).mark fun _ => rfl
  | .object ((k, x) :: ms) =>
    obtain ⟨hx, hms⟩ := Bool.and_eq_true_iff.mp h
    have hvalue : Scans (' ' :: x.indentedChars (level + 1)) x.tokens :=
      (scans_indentedChars (level + 1) x hx).blank rfl
    have hrest := hvalue.member (k := k) (scans_indentedMembers level ms hms)
      (endsToken_indentedMembers level ms)
    rw [indentedChars, tokens]
    exact (hrest.blanks (isSpace_newLine (level + 1))).mark fun _ => rfl

theorem scans_indentedElements (level : Nat) (xs : List Json) (h : wholeElements xs = true) :
    Scans (indentedElements level xs) (tokensElements xs) := by
  match xs with
  | [] => exact Scans.blanks (isSpace_newLine level) fun _ => ⟨_, rfl, rfl⟩
  | x :: xs =>
    obtain ⟨hx, hxs⟩ := Bool.and_eq_true_iff.mp h
    have hrest := (scans_indentedChars (level + 1) x hx).append
      (scans_indentedElements level xs hxs) (endsToken_indentedElements level xs)
    rw [indentedElements, tokensElements]
    exact (hrest.blanks (isSpace_newLine (level + 1))).mark fun _ => rfl

theorem scans_indentedMembers (level : Nat) (ms : List (String × Json))
    (h : wholeMembers ms = true) : Scans (indentedMembers level ms) (tokensMembers ms) := by
  match ms with
  | [] => exact Scans.blanks (isSpace_newLine level) fun _ => ⟨_, rfl, rfl⟩
  | (k, x) :: ms =>
    obtain ⟨hx, hms⟩ := Bool.and_eq_true_iff.mp h
    have hvalue : Scans (' ' :: x.indentedChars (level + 1)) x.tokens :=
      (scans_indentedChars (level + 1) x hx).blank rfl
    have hrest := hvalue.member (k := k) (scans_indentedMembers level ms hms)
      (endsToken_indentedMembers level ms)
    rw [indentedMembers, tokensMembers]
    exact (hrest.blanks (isSpace_newLine (level + 1))).mark fun _ => rfl

end

/-- Whatever is scanned as the tokens of a value is a text of that value. -/
theorem read?_of_scans {v : Json} {cs : List Char} (h : Scans cs v.tokens) :
    Source.read? (String.ofList cs) = some v.toSource := by
  obtain ⟨s, hs, hfinish⟩ := h []
  have htokens : tokens? cs = some v.tokens := by
    rw [tokens?, Scanner.start, hs, Option.bind_some, hfinish, Option.map_some, List.append_nil,
      List.reverse_reverse]
  rw [Source.read?, String.toList_ofList, htokens, Option.bind_some, foldlM_tokens]
  rfl

theorem read?_compact {v : Json} (h : v.wholeNumbers = true) :
    Source.read? v.compact = some v.toSource :=
  read?_of_scans (scans_chars v h)

theorem read?_indented {v : Json} (h : v.wholeNumbers = true) :
    Source.read? v.indented = some v.toSource :=
  read?_of_scans (scans_indentedChars 0 v h)

end BrushLink.Json
