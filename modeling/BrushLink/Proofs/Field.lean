import BrushLink.Field
import BrushLink.Proofs.Text.Quoted

/-! # Paths of fields

The name of a field is taken apart at its dots, where a backslash counts only right before
a dot.  Nothing is lost: written together again, with a backslash before each dot that is
part of a segment, the segments are the name (`joinSegments_splitSegments`).  The other way
round a backslash at the end of a segment would take the dot that follows into the segment.
So exactly those lists are the segments of a name in which only the last segment may end in
a backslash (`splitSegments_joinSegments_iff`).

An access to a datum writes the path out once for every segment.  Whatever the segments
are, each stands between quotes after what both of two accesses to the same datum have in
common, so that two equal accesses go down the same path (`intercalate_accesses_inj`).
-/
namespace BrushLink

/-! ## Segments written together -/

/-- How a character of a segment is written in a name. -/
def escapeDot (c : Char) : List Char := if c = '.' then ['\\', '.'] else [c]

/-- Segments with their dots escaped, and a dot between one and the next. -/
def joinSegments (ss : List (List Char)) : List Char :=
  ['.'].intercalate (ss.map fun s => s.flatMap escapeDot)

theorem joinSegments_singleton (s : List Char) : joinSegments [s] = s.flatMap escapeDot :=
  List.intercalate_singleton

theorem joinSegments_cons {ss : List (List Char)} (s : List Char) (h : ss ≠ []) :
    joinSegments (s :: ss) = s.flatMap escapeDot ++ '.' :: joinSegments ss := by
  obtain ⟨t, ts, rfl⟩ := List.exists_cons_of_ne_nil h
  rw [joinSegments, List.map_cons, List.map_cons, List.intercalate_cons_cons, List.append_assoc]
  rfl

theorem joinSegments_consFirst {ss : List (List Char)} (c : Char) (h : ss ≠ []) :
    joinSegments (consFirst c ss) = escapeDot c ++ joinSegments ss := by
  obtain ⟨t, ts, rfl⟩ := List.exists_cons_of_ne_nil h
  rw [consFirst]
  by_cases hts : ts = []
  · rw [hts, joinSegments_singleton, joinSegments_singleton, List.flatMap_cons]
  · rw [joinSegments_cons _ hts, joinSegments_cons _ hts, List.flatMap_cons, List.append_assoc]

/-! ## A name from its segments -/

theorem consFirst_ne_nil (c : Char) (ss : List (List Char)) : consFirst c ss ≠ [] := by
  cases ss <;> exact List.cons_ne_nil _ _

theorem splitSegments_ne_nil (cs : List Char) : splitSegments cs ≠ [] := by
  fun_cases splitSegments cs with
  | case1 => exact List.cons_ne_nil _ _
  | case2 cs => exact consFirst_ne_nil _ _
  | case3 cs => exact List.cons_ne_nil _ _
  | case4 c cs => exact consFirst_ne_nil _ _

theorem joinSegments_splitSegments (cs : List Char) : joinSegments (splitSegments cs) = cs := by
  fun_induction splitSegments cs with
  | case1 => rfl
  | case2 cs ih =>
    rw [joinSegments_consFirst _ (splitSegments_ne_nil cs), ih]
    rfl
  | case3 cs ih =>
    rw [joinSegments_cons _ (splitSegments_ne_nil cs), ih]
    rfl
  | case4 c cs _ hdot ih =>
    rw [joinSegments_consFirst _ (splitSegments_ne_nil cs), ih, escapeDot, if_neg hdot]
    rfl

/-! ## Segments from a name -/

/-- A character that is no dot, and no backslash before one, is part of the segment. -/
theorem splitSegments_cons {c : Char} {cs : List Char} (hdot : c ≠ '.')
    (hescape : c = '\\' → cs.head? ≠ some '.') :
    splitSegments (c :: cs) = consFirst c (splitSegments cs) := by
  refine splitSegments.eq_4 c cs ?_ hdot
  rintro cs' hc rfl
  exact hescape hc rfl

/-- No segment is written so that it starts with a dot. -/
theorem head?_escaped_append {s r : List Char} (h : s ≠ []) :
    (s.flatMap escapeDot ++ r).head? ≠ some '.' := by
  obtain ⟨c, s, rfl⟩ := List.exists_cons_of_ne_nil h
  rw [List.flatMap_cons, escapeDot]
  split
  · intro hdot
    exact absurd (Option.some.inj hdot) (by decide)
  · rename_i hc
    intro hdot
    exact hc (Option.some.inj hdot)

theorem foldr_consFirst (s t : List Char) (ss : List (List Char)) :
    s.foldr consFirst (t :: ss) = (s ++ t) :: ss := by
  induction s with
  | nil => rfl
  | cons c s ih => rw [List.foldr_cons, ih, consFirst, List.cons_append]

/-- What is written for a segment is read as part of the first segment, unless a backslash
at its end meets a dot. -/
theorem splitSegments_escaped_append {s r : List Char}
    (h : s.getLast? = some '\\' → r.head? ≠ some '.') :
    splitSegments (s.flatMap escapeDot ++ r) = s.foldr consFirst (splitSegments r) := by
  induction s with
  | nil => rfl
  | cons c s ih =>
    have hrest : s.getLast? = some '\\' → r.head? ≠ some '.' := by
      intro hs
      refine h ?_
      rw [List.getLast?_cons, hs, Option.getD_some]
    rw [List.foldr_cons, ← ih hrest, List.flatMap_cons, List.append_assoc]
    by_cases hc : c = '.'
    · subst hc
      rfl
    · rw [escapeDot, if_neg hc, List.singleton_append]
      refine splitSegments_cons hc fun hb => ?_
      by_cases hs : s = []
      · subst hs hb
        exact h rfl
      · exact head?_escaped_append hs

theorem splitSegments_joinSegments {ss : List (List Char)} (hne : ss ≠ [])
    (h : ∀ s ∈ ss.dropLast, s.getLast? ≠ some '\\') : splitSegments (joinSegments ss) = ss := by
  induction ss with
  | nil => exact absurd rfl hne
  | cons s ss ih =>
    by_cases hss : ss = []
    · have hend : s.getLast? = some '\\' → ([] : List Char).head? ≠ some '.' := by
        intro _ hdot
        cases hdot
      have hsplit := splitSegments_escaped_append hend
      rw [List.append_nil] at hsplit
      rw [hss, joinSegments_singleton, hsplit, splitSegments, foldr_consFirst, List.append_nil]
    · rw [List.dropLast_cons_of_ne_nil hss] at h
      have hlast : s.getLast? ≠ some '\\' := h s List.mem_cons_self
      have hrest := ih hss fun t ht => h t (List.mem_cons_of_mem s ht)
      rw [joinSegments_cons s hss, splitSegments_escaped_append fun hs => absurd hs hlast,
        splitSegments, foldr_consFirst, List.append_nil, hrest]

/-- The first of several segments is empty only if a dot comes first. -/
theorem head?_of_splitSegments {cs : List Char}
    (h : (splitSegments cs).dropLast.head? = some []) : cs.head? = some '.' := by
  have hfirst : ∀ c ss, (consFirst c ss).dropLast.head? ≠ some [] := by
    intro c ss hnil
    rcases ss with _ | ⟨t, _ | ⟨u, us⟩⟩ <;> cases hnil
  revert h
  fun_cases splitSegments cs with
  | case1 =>
    intro h
    cases h
  | case2 cs => exact fun h => absurd h (hfirst _ _)
  | case3 cs => exact fun _ => rfl
  | case4 c cs => exact fun h => absurd h (hfirst _ _)

/-- A segment before the last one was there, or was the first and got the new character. -/
theorem mem_dropLast_consFirst {c : Char} {ss : List (List Char)} {s : List Char}
    (h : s ∈ (consFirst c ss).dropLast) :
    s ∈ ss.dropLast ∨ ∃ t, ss.dropLast.head? = some t ∧ s = c :: t := by
  rcases ss with _ | ⟨t, _ | ⟨u, us⟩⟩
  · cases h
  · cases h
  · rw [consFirst, List.dropLast_cons_cons] at h
    rw [List.dropLast_cons_cons]
    rcases List.mem_cons.mp h with rfl | h
    · exact Or.inr ⟨t, rfl, rfl⟩
    · exact Or.inl (List.mem_cons_of_mem t h)

theorem getLast?_cons_ne {c d : Char} {t : List Char} (ht : t.getLast? ≠ some d)
    (hc : t = [] → c ≠ d) : (c :: t).getLast? ≠ some d := by
  cases t with
  | nil => exact fun h => hc rfl (Option.some.inj h)
  | cons e t => exact ht

/-- Only the last segment of a name may end in a backslash. -/
theorem getLast?_of_mem_splitSegments {cs s : List Char} (h : s ∈ (splitSegments cs).dropLast) :
    s.getLast? ≠ some '\\' := by
  fun_induction splitSegments cs generalizing s with
  | case1 => cases h
  | case2 cs ih =>
    rcases mem_dropLast_consFirst h with h | ⟨t, ht, rfl⟩
    · exact ih h
    · exact getLast?_cons_ne (ih (List.mem_of_head? ht)) fun _ => by decide
  | case3 cs ih =>
    rw [List.dropLast_cons_of_ne_nil (splitSegments_ne_nil cs)] at h
    rcases List.mem_cons.mp h with rfl | h
    · intro hlast
      cases hlast
    · exact ih h
  | case4 c cs hescape _ ih =>
    rcases mem_dropLast_consFirst h with h | ⟨t, ht, rfl⟩
    · exact ih h
    · refine getLast?_cons_ne (ih (List.mem_of_head? ht)) ?_
      -- where a segment of one character ends a dot follows, which a backslash would escape
      rintro rfl rfl
      obtain ⟨cs', rfl⟩ := List.head?_eq_some_iff.mp (head?_of_splitSegments ht)
      exact hescape cs' rfl rfl

theorem splitSegments_joinSegments_iff {ss : List (List Char)} :
    splitSegments (joinSegments ss) = ss ↔
      ss ≠ [] ∧ ∀ s ∈ ss.dropLast, s.getLast? ≠ some '\\' := by
  constructor
  · intro h
    rw [← h]
    exact ⟨splitSegments_ne_nil _, fun s hs => getLast?_of_mem_splitSegments hs⟩
  · rintro ⟨hne, hlast⟩
    exact splitSegments_joinSegments hne hlast

namespace Field

theorem eq_of_name {f g : Field} (h : f.name = g.name) : f = g := by
  cases f
  cases g
  exact congrArg Field.mk h

/-- The field that segments address: the dots of each are escaped, and a dot stands between
one and the next. -/
def ofSegments (ss : List String) : Field :=
  ⟨".".intercalate (ss.map fun s => String.ofList (s.toList.flatMap escapeDot))⟩

theorem toList_ofSegments (ss : List String) :
    (ofSegments ss).name.toList = joinSegments (ss.map String.toList) := by
  rw [ofSegments, String.toList_intercalate, joinSegments, List.map_map, List.map_map]
  refine congrArg _ (List.map_congr_left fun s _ => ?_)
  exact String.toList_ofList

theorem map_toList_segments (f : Field) :
    f.segments.map String.toList = splitSegments f.name.toList := by
  rw [segments, List.map_map]
  exact (List.map_congr_left fun s _ => String.toList_ofList).trans (List.map_id _)

theorem ofSegments_segments (f : Field) : ofSegments f.segments = f := by
  apply eq_of_name
  rw [← String.toList_inj, toList_ofSegments, map_toList_segments, joinSegments_splitSegments]

theorem segments_injective : Function.Injective segments := by
  intro f g h
  rw [← ofSegments_segments f, h, ofSegments_segments]

theorem segments_ofSegments_iff (ss : List String) :
    (ofSegments ss).segments = ss ↔
      ss ≠ [] ∧ ∀ s ∈ ss.dropLast, s.toList.getLast? ≠ some '\\' := by
  have hinj : Function.Injective (List.map String.toList) :=
    List.map_injective_iff.mpr fun _ _ => String.toList_inj.mp
  rw [← hinj.eq_iff, map_toList_segments, toList_ofSegments, splitSegments_joinSegments_iff,
    ← List.map_dropLast, List.forall_mem_map, ne_eq, List.map_eq_nil_iff]

-- the backslash takes the dot between the two into the segment
example : (ofSegments ["a\\", "b"]).segments = ["a.b"] := by decide

/-- **Segments say all about a field.**  Written together they are its name, so fields with
the same segments are the same; and a list comes back from the name that it is written as
exactly if there is a segment in it and none but the last ends in a backslash. -/
theorem segments_lossless :
    (∀ f : Field, (ofSegments f.segments).name = f.name) ∧
    (∀ f g : Field, f.segments = g.segments ↔ f = g) ∧
    ∀ ss : List String, (ofSegments ss).segments = ss ↔
      ss ≠ [] ∧ ∀ s ∈ ss.dropLast, s.toList.getLast? ≠ some '\\' :=
  ⟨fun f => congrArg Field.name (ofSegments_segments f), fun _ _ => segments_injective.eq_iff,
    segments_ofSegments_iff⟩

end Field

/-! ## Accesses -/

/-- After the first of several texts comes nothing, or what stands between them and the
others. -/
theorem intercalate_cons (sep text : String) (texts : List String) :
    sep.intercalate (text :: texts) =
      text ++ if texts = [] then "" else sep ++ sep.intercalate texts := by
  split
  · rename_i h
    rw [h, String.intercalate_singleton, String.append_empty]
  · rename_i h
    rw [String.intercalate_cons_of_ne_nil h, String.append_assoc]

/-- The expression `e[s]`. -/
def indexed (e s : String) : String := e ++ "[" ++ Text.quote s ++ "]"

theorem accesses_cons (base s : String) (ss : List String) :
    accesses base (s :: ss) = indexed base s :: accesses (indexed base s) ss := rfl

/-- The segment by which an expression is indexed ends where its quotes end. -/
theorem indexed_append_inj {e s t r u : String} (h : indexed e s ++ r = indexed e t ++ u) :
    s = t ∧ r = u := by
  have hlists := congrArg String.toList h
  simp only [indexed, String.toList_append, Text.toList_quote, List.append_assoc] at hlists
  have hquoted := List.append_cancel_left (List.append_cancel_left hlists)
  obtain ⟨hs, hrest⟩ := Text.quoteChars_append_inj hquoted
  exact ⟨String.toList_inj.mp hs, String.toList_inj.mp (List.append_cancel_left hrest)⟩

theorem indexed_append_ne_empty (e s r : String) : indexed e s ++ r ≠ "" := by
  intro h
  have hlength := congrArg (fun text : String => text.toList.length) h
  simp [indexed] at hlength

theorem accesses_eq_nil_iff {base : String} {ss : List String} :
    accesses base ss = [] ↔ ss = [] := by
  cases ss with
  | nil => exact iff_of_true rfl rfl
  | cons s ss => exact iff_of_false (List.cons_ne_nil _ _) (List.cons_ne_nil _ _)

theorem intercalate_accesses_inj {base : String} {ss ts : List String}
    (h : " && ".intercalate (accesses base ss) = " && ".intercalate (accesses base ts)) :
    ss = ts := by
  induction ss generalizing base ts with
  | nil =>
    cases ts with
    | nil => rfl
    | cons t ts =>
      rw [accesses_cons, intercalate_cons] at h
      exact absurd h.symm (indexed_append_ne_empty _ _ _)
  | cons s ss ih =>
    rw [accesses_cons, intercalate_cons] at h
    cases ts with
    | nil => exact absurd h (indexed_append_ne_empty _ _ _)
    | cons t ts =>
      rw [accesses_cons, intercalate_cons] at h
      obtain ⟨rfl, hrest⟩ := indexed_append_inj h
      have hlonger : ∀ text : String, " && " ++ text ≠ "" := by
        intro text he
        exact absurd (String.append_eq_empty_iff.mp he).1 (by decide)
      -- either both paths end here or both go on from the same expression
      simp only [accesses_eq_nil_iff] at hrest
      split at hrest <;> split at hrest
      · rename_i hss hts
        rw [hss, hts]
      · exact absurd hrest.symm (hlonger _)
      · exact absurd hrest (hlonger _)
      · rw [ih ((String.append_right_inj _).mp hrest)]

/-- The accesses are those by the beginnings of the path, from the shortest on. -/
theorem accesses_eq_map (base : String) (ss : List String) :
    accesses base ss =
      (List.range ss.length).map fun i => (ss.take (i + 1)).foldl indexed base := by
  induction ss generalizing base with
  | nil => rfl
  | cons s ss ih =>
    rw [accesses_cons, ih, List.length_cons, List.range_succ_eq_map, List.map_cons, List.map_map]
    rfl

/-- What an access indexes is the access right before it. -/
theorem getElem?_accesses_succ {base s : String} {ss : List String} {i : Nat}
    (h : ss[i + 1]? = some s) :
    ∃ e, (accesses base ss)[i]? = some e ∧ (accesses base ss)[i + 1]? = some (indexed e s) := by
  obtain ⟨hi, _⟩ := List.getElem?_eq_some_iff.mp h
  refine ⟨(ss.take (i + 1)).foldl indexed base, ?_, ?_⟩
  · have hlt : i < ss.length := by omega
    rw [accesses_eq_map, List.getElem?_map, List.getElem?_range hlt, Option.map_some]
  · rw [accesses_eq_map, List.getElem?_map, List.getElem?_range hi, Option.map_some,
      List.take_add_one, h, Option.toList_some, List.foldl_concat]

/-- Tests that go down a path from a datum: one for each segment. -/
structure Guards (datum : String) (path tests : List String) : Prop where
  /-- The test of a segment is the access by the path up to there. -/
  reads : tests = (List.range path.length).map fun i => (path.take (i + 1)).foldl indexed datum
  /-- What is indexed by a segment other than the first has just been tested. -/
  tested : ∀ i s, path[i + 1]? = some s →
    ∃ e, tests[i]? = some e ∧ tests[i + 1]? = some (indexed e s)

theorem guards_accesses (datum : String) (path : List String) :
    Guards datum path (accesses datum path) where
  reads := accesses_eq_map datum path
  tested := fun _ _ h => getElem?_accesses_succ h

example : accesses "datum" ["a", "b"] = ["datum[\"a\"]", "datum[\"a\"][\"b\"]"] := by decide

/-- **Different fields are read by different expressions, which test before they index.**
For every name of the datum the access to a field determines the field; and it is the
conjunction of the successively longer accesses by the segments of the field, each of which
indexes what the one before it has tested. -/
theorem Field.access_guarded (datum : String) :
    (∀ f g : Field, f.access datum = g.access datum ↔ f = g) ∧
    ∀ f : Field, ∃ tests, f.access datum = " && ".intercalate tests ∧
      Guards datum f.segments tests := by
  refine ⟨fun f g => ⟨fun h => ?_, ?_⟩, fun f => ⟨_, rfl, guards_accesses datum f.segments⟩⟩
  · exact segments_injective (intercalate_accesses_inj h)
  · rintro rfl
    rfl

end BrushLink
