import BrushLink.Proofs.Field
import BrushLink.Proofs.Json.Reading
import BrushLink.Signal.Unit

/-! # Expressions that can be taken apart

Scales and signals refer to selections by text: a scale reads `selection["field"]`,
and the composite of a selection is an object literal from its fields to the
signals `selection_field` that hold their data.  Whatever characters the names are
made of, these texts are unambiguous: from the first both names can be read off
(`selectionEntry_inj`), and from the second the fields in their order
(`compositeUpdate_inj`).  A field is always named by the JSON text of its name, which ends
at its own closing quote, so that it does not matter what the raw names around it are
(`expressions_unambiguous`).
-/
namespace BrushLink

theorem selectionEntry_inj {s s' : String} {f f' : Field}
    (h : selectionEntry s f = selectionEntry s' f') : s = s' ∧ f = f' := by
  have hchars : ∀ (s : String) (f : Field), (selectionEntry s f).toList =
      s.toList ++ '[' :: (Text.quoteChars f.name.toList ++ [']']) := by
    intro s f
    simp [selectionEntry]
  have hlists := congrArg String.toList h
  rw [hchars, hchars] at hlists
  obtain ⟨hs, hf⟩ := Text.bracket_quote_inj hlists
  exact ⟨String.toList_injective hs, Field.eq_of_name (String.toList_injective hf)⟩

/-- The entries of a composite: each field with the name of its data signal. -/
def compositeEntries (selection : String) (fs : List Field) : List (String × String) :=
  fs.map fun f => (f.name, dataSignalName selection f)

/-- The composite of a selection: the object literal from fields to data signals. -/
def Signal.composite (selection : String) (fs : List Field) : Signal :=
  .following selection (compositeUpdate (compositeEntries selection fs))

/-- One member of the literal. -/
def compositeMember (selection : String) (f : Field) : String :=
  Text.quote f.name ++ ": " ++ dataSignalName selection f

theorem compositeUpdate_entries (selection : String) (fs : List Field) :
    compositeUpdate (compositeEntries selection fs) =
      "\x7b" ++ ", ".intercalate (fs.map (compositeMember selection)) ++ "\x7d" := by
  unfold compositeUpdate compositeEntries
  rw [List.map_map]
  rfl

theorem compositeMember_toList (selection : String) (f : Field) :
    (compositeMember selection f).toList = Text.quoteChars f.name.toList ++
      (':' :: ' ' :: selection.toList ++ '_' :: f.name.toList) := by
  simp [compositeMember, dataSignalName]

/-- A member and what follows it are both determined. -/
theorem compositeMember_append_inj {selection : String} {f g : Field} {r u : String}
    (h : compositeMember selection f ++ r = compositeMember selection g ++ u) :
    f = g ∧ r = u := by
  have hlists := congrArg String.toList h
  simp only [String.toList_append, compositeMember_toList, List.append_assoc] at hlists
  have hname := (Text.quoteChars_append_inj hlists).1
  obtain rfl : f = g := Field.eq_of_name (String.toList_injective hname)
  exact ⟨rfl, (String.append_right_inj _).mp h⟩

/-- A member does not start like the end of the literal. -/
theorem compositeMember_append_ne (selection : String) (f : Field) (r : String) :
    compositeMember selection f ++ r ≠ "\x7d" := by
  intro h
  have hlists := congrArg String.toList h
  rw [String.toList_append, compositeMember_toList] at hlists
  exact absurd (List.cons.inj hlists).1 (by decide)

theorem members_inj {selection : String} {fs gs : List Field}
    (h : ", ".intercalate (fs.map (compositeMember selection)) ++ "\x7d" =
      ", ".intercalate (gs.map (compositeMember selection)) ++ "\x7d") : fs = gs := by
  induction fs generalizing gs with
  | nil =>
    cases gs with
    | nil => rfl
    | cons g gs =>
      rw [List.map_cons, intercalate_cons, String.append_assoc] at h
      exact absurd h.symm (compositeMember_append_ne _ _ _)
  | cons f fs ih =>
    rw [List.map_cons, intercalate_cons, String.append_assoc] at h
    cases gs with
    | nil => exact absurd h (compositeMember_append_ne _ _ _)
    | cons g gs =>
      rw [List.map_cons, intercalate_cons, String.append_assoc] at h
      obtain ⟨rfl, hrest⟩ := compositeMember_append_inj h
      have hcomma : ∀ text : String, ", " ++ text ++ "\x7d" ≠ "" ++ "\x7d" := by
        intro text he
        have hlists := congrArg String.toList he
        rw [String.toList_append, String.toList_append] at hlists
        exact absurd (List.cons.inj hlists).1 (by decide)
      -- after the member the literal ends or a comma stands, on both sides alike
      simp only [List.map_eq_nil_iff] at hrest
      split at hrest <;> split at hrest
      · rename_i hfs hgs
        rw [hfs, hgs]
      · exact absurd hrest.symm (hcomma _)
      · exact absurd hrest (hcomma _)
      · rw [String.append_assoc, String.append_assoc] at hrest
        rw [ih ((String.append_right_inj _).mp hrest)]

theorem compositeUpdate_inj {selection : String} {fs gs : List Field}
    (h : compositeUpdate (compositeEntries selection fs) =
      compositeUpdate (compositeEntries selection gs)) : fs = gs := by
  rw [compositeUpdate_entries, compositeUpdate_entries, String.append_assoc,
    String.append_assoc] at h
  exact members_inj ((String.append_right_inj _).mp h)

/-- A name between quotes is the JSON text of the name. -/
theorem quote_eq_compact (name : String) : Text.quote name = (Json.string name).compact := by
  rw [Text.quote, Json.compact, Json.chars]

theorem read?_quote (name : String) :
    Json.Source.read? (Text.quote name) = some (.string (some name)) := by
  have hwhole : (Json.string name).wholeNumbers = true := by rw [Json.wholeNumbers]
  rw [quote_eq_compact, Json.read?_compact hwhole, Json.toSource]

/-- **Expressions say which selection and which fields they mean.**  Whatever characters
names are made of, the expression for what a selection holds of a field determines both,
and the object literal over the data signals of a selection's fields determines these
fields and their order.  In both a field is named by the compact JSON text of its name. -/
theorem expressions_unambiguous :
    (∀ (s s' : String) (f f' : Field),
      selectionEntry s f = selectionEntry s' f' ↔ s = s' ∧ f = f') ∧
    (∀ (s : String) (fs fs' : List Field),
      compositeUpdate (compositeEntries s fs) = compositeUpdate (compositeEntries s fs') ↔
        fs = fs') ∧
    ∀ name : String, Text.quote name = (Json.string name).compact ∧
      Json.Source.read? (Text.quote name) = some (.string (some name)) := by
  refine ⟨fun s s' f f' => ⟨selectionEntry_inj, ?_⟩, fun s fs fs' => ⟨compositeUpdate_inj, ?_⟩,
    fun name => ⟨quote_eq_compact name, read?_quote name⟩⟩
  · rintro ⟨rfl, rfl⟩
    rfl
  · rintro rfl
    rfl

theorem composite_inj {s s' : String} {fs fs' : List Field}
    (h : Signal.composite s fs = Signal.composite s' fs') : s = s' ∧ fs = fs' := by
  obtain rfl : s = s' := congrArg Signal.name h
  exact ⟨rfl, compositeUpdate_inj (Option.some.inj (congrArg Signal.update? h))⟩

/-- A text that ends like a reading of the tuple is no composite. -/
theorem append_null_ne_compositeUpdate (text : String) (es : List (String × String)) :
    text ++ "] : null" ≠ compositeUpdate es := by
  intro h
  have hlast : (text ++ "] : null").toList.getLast? = (compositeUpdate es).toList.getLast? := by
    rw [h]
  simp only [compositeUpdate, String.toList_append, List.getLast?_append] at hlast
  exact absurd (Option.some.inj hlast) (by decide)

end BrushLink
