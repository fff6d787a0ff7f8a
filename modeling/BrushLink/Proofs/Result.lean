import BrushLink.Diagnosis
import Mathlib.Data.List.Forall2
import Mathlib.Data.List.Zip

/-! # Steps that may fail

A computation that succeeds is taken apart into the steps it is made of: each of
them succeeded, and the next one started from its result.
-/
namespace BrushLink

theorem Except.bind_eq_ok {ε α β : Type} {x : Except ε α} {f : α → Except ε β} {b : β} :
    x >>= f = .ok b ↔ ∃ a, x = .ok a ∧ f a = .ok b := by
  cases x with
  | error e => exact ⟨nofun, fun ⟨_, h, _⟩ => nomatch h⟩
  | ok a => exact ⟨fun h => ⟨a, rfl, h⟩, fun ⟨_, h, hb⟩ => Except.ok.inj h ▸ hb⟩

theorem Except.bind_eq_error {ε α β : Type} {x : Except ε α} {f : α → Except ε β} {e : ε} :
    x >>= f = .error e ↔ x = .error e ∨ ∃ a, x = .ok a ∧ f a = .error e := by
  cases x with
  | error e' => simp [bind, Except.bind]
  | ok a => simp [bind, Except.bind]

theorem Except.map_eq_ok {ε α β : Type} {f : α → β} {x : Except ε α} {b : β} :
    f <$> x = .ok b ↔ ∃ a, x = .ok a ∧ f a = b := by
  cases x with
  | error e => simp [Functor.map, Except.map]
  | ok a => simp [Functor.map, Except.map]

theorem Except.map_eq_error {ε α β : Type} {f : α → β} {x : Except ε α} {e : ε} :
    f <$> x = .error e ↔ x = .error e := by
  cases x with
  | error e' => simp [Functor.map, Except.map]
  | ok a => simp [Functor.map, Except.map]

theorem CompileError.ofTree_eq_ok {α : Type} {x : Except ViewTree.Fault α} {a : α} :
    CompileError.ofTree x = .ok a ↔ x = .ok a := by
  cases x with
  | error e => exact ⟨nofun, nofun⟩
  | ok b => exact ⟨fun h => congrArg _ (Except.ok.inj h), fun h => congrArg _ (Except.ok.inj h)⟩

/-- What each step keeps, all steps keep. -/
theorem foldlM_ok_induction {ε α σ : Type} {f : σ → α → Except ε σ} {as : List α} {s s' : σ}
    (P : σ → Prop) (hstep : ∀ s₁ s₂ a, a ∈ as → P s₁ → f s₁ a = .ok s₂ → P s₂)
    (h : as.foldlM f s = .ok s') (hs : P s) : P s' := by
  induction as generalizing s with
  | nil =>
    obtain rfl := Except.ok.inj h
    exact hs
  | cons a as ih =>
    rw [List.foldlM_cons] at h
    obtain ⟨s₁, h₁, h⟩ := Except.bind_eq_ok.mp h
    exact ih (fun s₁ s₂ b hb => hstep s₁ s₂ b (List.mem_cons_of_mem _ hb)) h
      (hstep s s₁ a List.mem_cons_self hs h₁)

/-- Where steps fail, one of them fails in a state that the steps before it led to. -/
theorem foldlM_error_induction {ε α σ : Type} {f : σ → α → Except ε σ} {as : List α} {s : σ}
    {e : ε} (P : σ → Prop) (hstep : ∀ s₁ s₂ a, a ∈ as → P s₁ → f s₁ a = .ok s₂ → P s₂)
    (h : as.foldlM f s = .error e) (hs : P s) : ∃ s₁, ∃ a ∈ as, P s₁ ∧ f s₁ a = .error e := by
  induction as generalizing s with
  | nil => cases h
  | cons a as ih =>
    rw [List.foldlM_cons] at h
    rcases Except.bind_eq_error.mp h with h | ⟨s₁, h₁, h⟩
    · exact ⟨s, a, List.mem_cons_self, hs, h⟩
    · obtain ⟨s₂, b, hb, hs₂, he⟩ :=
        ih (fun s₁ s₂ b hb => hstep s₁ s₂ b (List.mem_cons_of_mem _ hb)) h
          (hstep s s₁ a List.mem_cons_self hs h₁)
      exact ⟨s₂, b, List.mem_cons_of_mem _ hb, hs₂, he⟩

/-- Steps that do the same lead to the same. -/
theorem foldlM_congr_forall₂ {ε α β σ : Type} {R : α → β → Prop} {f : σ → α → Except ε σ}
    {f' : σ → β → Except ε σ} {as : List α} {bs : List β} (h : List.Forall₂ R as bs)
    (hf : ∀ s a b, R a b → f' s b = f s a) (s : σ) : bs.foldlM f' s = as.foldlM f s := by
  induction h generalizing s with
  | nil => rfl
  | cons hab _ ih =>
    rw [List.foldlM_cons, List.foldlM_cons, hf s _ _ hab]
    exact bind_congr ih

/-- Where each step goes along with a map of states, all steps do. -/
theorem foldlM_map_state {ε α σ τ : Type} {f : σ → α → Except ε σ} {f' : τ → α → Except ε τ}
    (m : σ → τ) (hf : ∀ s a, f' (m s) a = m <$> f s a) (as : List α) (s : σ) :
    as.foldlM f' (m s) = m <$> as.foldlM f s := by
  induction as generalizing s with
  | nil => rfl
  | cons a as ih =>
    rw [List.foldlM_cons, List.foldlM_cons, hf, bind_map_left, map_bind]
    exact bind_congr ih

/-- Whatever stands on the one side has a counterpart on the other. -/
theorem exists_zip_of_mem_left {α β : Type} {R : α → β → Prop} {as : List α} {bs : List β} {a : α}
    (h : List.Forall₂ R as bs) (ha : a ∈ as) : ∃ b, (a, b) ∈ as.zip bs := by
  induction h with
  | nil => cases ha
  | cons _ _ ih =>
    rcases List.mem_cons.mp ha with rfl | ha
    · exact ⟨_, List.mem_cons_self⟩
    · obtain ⟨b, hb⟩ := ih ha
      exact ⟨b, List.mem_cons_of_mem _ hb⟩

theorem exists_zip_of_mem_right {α β : Type} {R : α → β → Prop} {as : List α} {bs : List β} {b : β}
    (h : List.Forall₂ R as bs) (hb : b ∈ bs) : ∃ a, (a, b) ∈ as.zip bs := by
  obtain ⟨a, ha⟩ := exists_zip_of_mem_left h.flip hb
  rw [← List.zip_swap, List.mem_map] at ha
  obtain ⟨⟨b', a'⟩, hmem, he⟩ := ha
  cases he
  exact ⟨_, hmem⟩

/-- Whatever stands at a place on the one side has a counterpart at that place on the other. -/
theorem exists_getElem?_of_forall₂ {α β : Type} {R : α → β → Prop} {as : List α} {bs : List β}
    {i : Nat} {b : β} (h : List.Forall₂ R as bs) (hb : bs[i]? = some b) :
    ∃ a, as[i]? = some a ∧ R a b := by
  induction h generalizing i with
  | nil => cases hb
  | @cons a b' as bs hab _ ih =>
    cases i with
    | zero =>
      obtain rfl := Option.some.inj hb
      exact ⟨a, rfl, hab⟩
    | succ i => exact ih hb

namespace Diagnosed
variable {α β : Type}

theorem bind_result_ok {x : Diagnosed α} {f : α → Diagnosed β} {b : β} :
    (x >>= f).result = .ok b ↔ ∃ a, x.result = .ok a ∧ (f a).result = .ok b := by
  change (Diagnosed.bind x f).result = _ ↔ _
  unfold Diagnosed.bind
  cases hx : x.result with
  | error e => exact ⟨nofun, fun ⟨_, h, _⟩ => nomatch h⟩
  | ok a => exact ⟨fun h => ⟨a, rfl, h⟩, fun ⟨_, h, hb⟩ => by cases h; exact hb⟩

theorem bind_result_error {x : Diagnosed α} {f : α → Diagnosed β} {e : CompileError} :
    (x >>= f).result = .error e ↔
      x.result = .error e ∨ ∃ a, x.result = .ok a ∧ (f a).result = .error e := by
  change (Diagnosed.bind x f).result = _ ↔ _
  unfold Diagnosed.bind
  cases hx : x.result with
  | error e' => simp
  | ok a => simp

theorem pure_result_ok {a b : α} : (pure a : Diagnosed α).result = .ok b ↔ a = b :=
  ⟨Except.ok.inj, congrArg _⟩

theorem id_map (x : Diagnosed α) : id <$> x = x := by
  obtain ⟨result, warnings⟩ := x
  cases result with
  | ok a => exact congrArg _ (List.append_nil _)
  | error e => rfl

/-- Warnings arise in the same order, however steps are grouped. -/
theorem bind_assoc {γ : Type} (x : Diagnosed α) (f : α → Diagnosed β) (k : β → Diagnosed γ) :
    x >>= f >>= k = x >>= fun a => f a >>= k := by
  change Diagnosed.bind (Diagnosed.bind x f) k = Diagnosed.bind x fun a => Diagnosed.bind (f a) k
  obtain ⟨result, warnings⟩ := x
  cases result with
  | error e => rfl
  | ok a =>
    simp only [Diagnosed.bind]
    cases (f a).result with
    | error e => rfl
    | ok b => simp only [List.append_assoc]

instance : LawfulMonad Diagnosed :=
  .mk' _ id_map (fun _ _ => rfl) bind_assoc

theorem ofExcept_ok_bind (a : α) (f : α → Diagnosed β) : ofExcept (.ok a) >>= f = f a := rfl

theorem ofExcept_error_bind (e : CompileError) (f : α → Diagnosed β) :
    ofExcept (.error e) >>= f = ofExcept (.error e) := rfl

theorem map_ofExcept_error (e : CompileError) (f : α → β) :
    f <$> ofExcept (.error e) = ofExcept (.error e) := rfl

theorem map_result (f : α → β) (x : Diagnosed α) : (f <$> x).result = x.result.map f := by
  obtain ⟨result, warnings⟩ := x
  cases result <;> rfl

theorem map_warnings (f : α → β) (x : Diagnosed α) : (f <$> x).warnings = x.warnings := by
  obtain ⟨result, warnings⟩ := x
  cases result with
  | ok a => exact List.append_nil _
  | error e => rfl

theorem bind_warnings_of_ok {x : Diagnosed α} {f : α → Diagnosed β} {a : α}
    (h : x.result = .ok a) : (x >>= f).warnings = x.warnings ++ (f a).warnings := by
  obtain ⟨result, warnings⟩ := x
  obtain rfl : result = .ok a := h
  rfl

/-- What follows a step is only ever asked about its result. -/
theorem bind_congr_of_result {x : Diagnosed α} {f f' : α → Diagnosed β}
    (h : ∀ a, x.result = .ok a → f a = f' a) : x >>= f = x >>= f' := by
  obtain ⟨result, warnings⟩ := x
  cases result with
  | ok a =>
    change Diagnosed.bind _ f = Diagnosed.bind _ f'
    simp only [Diagnosed.bind, h a rfl]
  | error e => rfl

/-- The results stand in the order of the list, one for each element. -/
theorem forEach_result_ok {f : α → Diagnosed β} {as : List α} {bs : List β} :
    (forEach f as).result = .ok bs ↔ List.Forall₂ (fun a b => (f a).result = .ok b) as bs := by
  induction as generalizing bs with
  | nil =>
    rw [List.forall₂_nil_left_iff, forEach]
    exact ⟨fun h => (Except.ok.inj h).symm, fun h => h ▸ rfl⟩
  | cons a as ih =>
    rw [forEach, bind_result_ok, List.forall₂_cons_left_iff]
    constructor
    · rintro ⟨b, hb, h⟩
      obtain ⟨bs', hbs, h⟩ := bind_result_ok.mp h
      exact ⟨b, bs', hb, ih.mp hbs, (Except.ok.inj h).symm⟩
    · rintro ⟨b, bs', hb, hbs, rfl⟩
      exact ⟨b, hb, bind_result_ok.mpr ⟨bs', ih.mpr hbs, rfl⟩⟩

/-- Where no step fails, the warnings of all of them stand one after the other. -/
theorem forEach_warnings_of_ok {f : α → Diagnosed β} {as : List α} {bs : List β}
    (h : (forEach f as).result = .ok bs) :
    (forEach f as).warnings = as.flatMap fun a => (f a).warnings := by
  induction as generalizing bs with
  | nil => rfl
  | cons a as ih =>
    obtain ⟨b, hb, hrest⟩ := bind_result_ok.mp h
    obtain ⟨bs', hbs, _⟩ := bind_result_ok.mp hrest
    rw [forEach, bind_warnings_of_ok hb, bind_warnings_of_ok hbs, ih hbs, List.flatMap_cons]
    exact congrArg (_ ++ ·) (List.append_nil _)

theorem forEach_map_congr {γ : Type} {f : α → Diagnosed β} {f' : γ → Diagnosed β} {m : α → γ}
    {as : List α} (h : ∀ a ∈ as, f' (m a) = f a) : forEach f' (as.map m) = forEach f as := by
  induction as with
  | nil => rfl
  | cons a as ih =>
    rw [List.map_cons, forEach, forEach, h a List.mem_cons_self,
      ih fun b hb => h b (List.mem_cons_of_mem _ hb)]

/-- Where no step fails, going through a list does not. -/
theorem exists_forEach_result {f : α → Diagnosed β} {as : List α}
    (h : ∀ a ∈ as, ∃ b, (f a).result = .ok b) : ∃ bs, (forEach f as).result = .ok bs := by
  induction as with
  | nil => exact ⟨[], rfl⟩
  | cons a as ih =>
    obtain ⟨b, hb⟩ := h a List.mem_cons_self
    obtain ⟨bs, hbs⟩ := ih fun a' ha' => h a' (List.mem_cons_of_mem _ ha')
    exact ⟨b :: bs, forEach_result_ok.mpr (.cons hb (forEach_result_ok.mp hbs))⟩

end Diagnosed

end BrushLink
