import BrushLink.Output
import BrushLink.Proofs.Json.Reading
import BrushLink.Proofs.Result

/-! # Decoding and nesting

Decoders take along how much nesting they allow, a text with a fixed limit and a value with
its own depth.  A limit that nothing exceeds does not matter: a decoder is *steady* on a part
if it gives the same result, or the same error, with every limit that the part keeps to.
Each way of putting decoders together keeps this, and a view is decoded by its record from
the views inside it, which are less deep (`decodeView_eq`), so all decoders are steady.

Together with what is read of a text being what was written, a value compiles to the same
from its text and as it is (`compileText_eq_compileValue`).
-/
namespace BrushLink

namespace Json.Source
variable {α β : Type}

/-! ## Depth -/

theorem depth_le_depthElements {xs : List Source} {x : Source} (h : x ∈ xs) :
    x.depth ≤ depthElements xs := by
  induction xs with
  | nil => cases h
  | cons y ys ih =>
    rw [depthElements]
    rcases List.mem_cons.mp h with rfl | h
    · exact Nat.le_max_left _ _
    · exact Nat.le_trans (ih h) (Nat.le_max_right _ _)

theorem depth_le_depthMembers {ms : List (Option String × Source)} {m : Option String × Source}
    (h : m ∈ ms) : m.2.depth ≤ depthMembers ms := by
  induction ms with
  | nil => cases h
  | cons n ns ih =>
    rw [depthMembers]
    rcases List.mem_cons.mp h with rfl | h
    · exact Nat.le_max_left _ _
    · exact Nat.le_trans (ih h) (Nat.le_max_right _ _)

theorem deeper_bind_congr {n l l' : Nat} {f : Nat → Except DecodeError α} (hl : n + 1 ≤ l)
    (hl' : n + 1 ≤ l') (h : ∀ m m', n ≤ m → n ≤ m' → f m = f m') :
    deeper l >>= f = deeper l' >>= f := by
  cases l with
  | zero => exact absurd hl (Nat.not_succ_le_zero n)
  | succ m =>
    cases l' with
    | zero => exact absurd hl' (Nat.not_succ_le_zero n)
    | succ m' => exact h m m' (Nat.le_of_succ_le_succ hl) (Nat.le_of_succ_le_succ hl')

/-! ## Steady decoders -/

/-- Whether every limit that a part keeps to gives the same. -/
def SteadyOn (d : Nat → Source → Except DecodeError α) (v : Source) : Prop :=
  ∀ l l', v.depth ≤ l → v.depth ≤ l' → d l v = d l' v

/-- A decoder for which limits do not matter, on whatever keeps to them. -/
def Steady (d : Nat → Source → Except DecodeError α) : Prop := ∀ v, SteadyOn d v

theorem steady_const (d : Source → Except DecodeError α) : Steady fun _ => d :=
  fun _ _ _ _ _ => rfl

section
variable {d : Nat → Source → Except DecodeError α} {v : Source}

theorem SteadyOn.map (h : SteadyOn d v) (f : α → β) : SteadyOn (fun l v => (d l v).map f) v :=
  fun l l' hl hl' => congrArg (Except.map f) (h l l' hl hl')

theorem SteadyOn.asOption (h : SteadyOn d v) : SteadyOn (fun l => asOption (d l)) v := by
  intro l l' hl hl'
  have hv := h l l' hl hl'
  cases v with
  | null => rfl
  | _ => exact congrArg (some <$> ·) hv

theorem mapM_congr_of_mem {f f' : Source → Except DecodeError α} {xs : List Source}
    (h : ∀ x ∈ xs, f x = f' x) : xs.mapM f = xs.mapM f' := by
  induction xs with
  | nil => rfl
  | cons x xs ih =>
    rw [List.mapM_cons, List.mapM_cons, h x List.mem_cons_self,
      ih fun y hy => h y (List.mem_cons_of_mem x hy)]

theorem SteadyOn.asList (h : ∀ x, x.depth < v.depth → SteadyOn d x) : SteadyOn (asList d) v := by
  intro l l' hl hl'
  cases v with
  | array xs =>
    refine deeper_bind_congr hl hl' fun m m' hm hm' => mapM_congr_of_mem fun x hx => ?_
    have hdepth := depth_le_depthElements hx
    exact h x (Nat.lt_succ_of_le hdepth) m m' (hdepth.trans hm) (hdepth.trans hm')
  | _ => rfl

theorem SteadyOn.asTable {κ : Type} [DecidableEq κ] (key : String → Except DecodeError κ)
    (h : ∀ x, x.depth < v.depth → SteadyOn d x) : SteadyOn (asTable key d) v := by
  intro l l' hl hl'
  cases v with
  | object ms =>
    refine deeper_bind_congr hl hl' fun m m' hm hm' => ?_
    have hmem : List.Forall₂ (fun e e' => e = e' ∧ e ∈ ms) ms ms :=
      List.forall₂_same.mpr fun e he => ⟨rfl, he⟩
    refine foldlM_congr_forall₂ hmem ?_ ∅
    rintro t e _ ⟨rfl, he⟩
    have hdepth := depth_le_depthMembers he
    rw [h e.2 (Nat.lt_succ_of_le hdepth) m m' (hdepth.trans hm) (hdepth.trans hm')]
  | _ => rfl

theorem steady_asName [Vocabulary α] : Steady (asName : Nat → Source → Except DecodeError α) := by
  intro v l l' hl hl'
  cases v with
  | object ms => exact deeper_bind_congr hl hl' fun _ _ _ _ => rfl
  | _ => rfl

end

mutual

theorem value_congr (v : Source) {l l' : Nat} (hl : v.depth ≤ l) (hl' : v.depth ≤ l') :
    v.value l = v.value l' := by
  match v with
  | .null | .bool _ | .number (some _) | .number none | .string (some _) | .string none => rfl
  | .array xs =>
    rw [value, value]
    refine deeper_bind_congr hl hl' fun m m' hm hm' => ?_
    rw [valueElements_congr xs hm hm']
  | .object ms =>
    rw [value, value]
    refine deeper_bind_congr hl hl' fun m m' hm hm' => ?_
    rw [valueMembers_congr ms [] hm hm']

theorem valueElements_congr (xs : List Source) {l l' : Nat} (hl : depthElements xs ≤ l)
    (hl' : depthElements xs ≤ l') : valueElements l xs = valueElements l' xs := by
  match xs with
  | [] => rfl
  | x :: xs =>
    rw [depthElements, Nat.max_le] at hl hl'
    rw [valueElements, valueElements, value_congr x hl.1 hl'.1, valueElements_congr xs hl.2 hl'.2]

theorem valueMembers_congr (ms : List (Option String × Source)) (done : List (String × Json))
    {l l' : Nat} (hl : depthMembers ms ≤ l) (hl' : depthMembers ms ≤ l') :
    valueMembers l done ms = valueMembers l' done ms := by
  match ms with
  | [] => rfl
  | (k, x) :: ms =>
    rw [depthMembers, Nat.max_le] at hl hl'
    rw [valueMembers, valueMembers, value_congr x hl.1 hl'.1]
    refine bind_congr fun k => bind_congr fun y => ?_
    exact valueMembers_congr ms _ hl.2 hl'.2

end

theorem steady_value : Steady value := fun v _ _ hl hl' => value_congr v hl hl'

theorem SteadyOn.alternatives {choices : List (Nat → Source → Except DecodeError α)} {v : Source}
    (title : String) (h : ∀ d ∈ choices, SteadyOn d v) :
    SteadyOn (fun l => alternatives title l choices) v := by
  intro l l' hl hl'
  have hchoices : (choices.findSome? fun d => (d l v).toOption) =
      choices.findSome? fun d => (d l' v).toOption := by
    rw [← List.head?_filterMap, ← List.head?_filterMap]
    refine congrArg List.head? (List.filterMap_congr fun d hd => ?_)
    rw [h d hd l l' hl hl']
  simp only [Source.alternatives, value_congr v hl hl', hchoices]

end Json.Source

open Json.Source

/-! ## Records -/

namespace Record
variable {α : Type} {r r' : Record α} {l l' : Nat}

/-- Objects are read alike where their members are. -/
theorem readMembers_congr (hmembers : r.members = r'.members)
    {ms : List (Option String × Json.Source)}
    (h : ∀ m ∈ ms, ∀ a k, r.read l a k m.2 = r'.read l' a k m.2) (seen : List String) (a : α) :
    r.readMembers l seen a ms = r'.readMembers l' seen a ms := by
  induction ms generalizing seen a with
  | nil => rfl
  | cons m ms ih =>
    have hms := ih fun n hn => h n (List.mem_cons_of_mem m hn)
    simp only [readMembers, h m List.mem_cons_self, hms, hmembers]

theorem readElements_congr {vs : List Json.Source}
    (h : ∀ v ∈ vs, ∀ a k, r.read l a k v = r'.read l' a k v) (count : Nat) (a : α)
    (ks : List String) : r.readElements l count a ks vs = r'.readElements l' count a ks vs := by
  induction vs generalizing a ks with
  | nil => cases ks <;> rfl
  | cons v vs ih =>
    have hvs := ih fun w hw => h w (List.mem_cons_of_mem v hw)
    cases ks with
    | nil => rfl
    | cons k ks => simp only [readElements, h v List.mem_cons_self, hvs]

/-- Only the limit that is left for the members matters to how they are read. -/
theorem decode_congr (htitle : r.title = r'.title) (hmembers : r.members = r'.members)
    (hstart : r.start = r'.start) (h : ∀ a k x, r.read l a k x = r'.read l a k x)
    (v : Json.Source) : r.decode (l + 1) v = r'.decode (l + 1) v := by
  cases v with
  | object ms =>
    change r.readMembers l [] r.start ms = r'.readMembers l [] r'.start ms
    rw [hstart]
    exact readMembers_congr hmembers (fun m _ a k => h a k m.2) [] r'.start
  | array vs =>
    change r.readElements l vs.length r.start r.members vs =
      r'.readElements l vs.length r'.start r'.members vs
    rw [hstart, hmembers]
    exact readElements_congr (fun x _ a k => h a k x) vs.length r'.start r'.members
  | _ => simp only [decode, htitle]

/-- A record is decoded by reading members that are less deep. -/
theorem steadyOn_decode {v : Json.Source}
    (h : ∀ x, x.depth < v.depth → ∀ a k, SteadyOn (fun l => r.read l a k) x) :
    SteadyOn r.decode v := by
  intro l l' hl hl'
  cases v with
  | object ms =>
    refine deeper_bind_congr hl hl' fun m m' hm hm' =>
      readMembers_congr rfl ?_ [] r.start
    intro e he a k
    have hdepth := depth_le_depthMembers he
    exact h e.2 (Nat.lt_succ_of_le hdepth) a k m m' (hdepth.trans hm) (hdepth.trans hm')
  | array vs =>
    refine deeper_bind_congr hl hl' fun m m' hm hm' => readElements_congr ?_ _ r.start r.members
    intro x hx a k
    have hdepth := depth_le_depthElements hx
    exact h x (Nat.lt_succ_of_le hdepth) a k m m' (hdepth.trans hm) (hdepth.trans hm')
  | _ => rfl

theorem steady_decode (h : ∀ a k, Steady fun l => r.read l a k) : Steady r.decode :=
  fun _ => steadyOn_decode fun x _ a k => h a k x

theorem steady_decodeObject (h : ∀ a k, Steady fun l => r.read l a k) : Steady r.decodeObject := by
  intro v l l' hl hl'
  cases v with
  | object ms => exact steady_decode h _ l l' hl hl'
  | _ => rfl

end Record

/-! ## Parts of a view -/

theorem steady_decodeBind : Steady decodeBind := by
  intro v
  have hword : SteadyOn decodeScalesWord v :=
    (steady_asName (α := BindWord) v).map fun _ => Bind.scales
  have hwidget : SteadyOn decodeWidget v := by
    intro l l' hl hl'
    rw [decodeWidget, decodeWidget, value_congr v hl hl']
  exact .alternatives "BindSpec"
    (List.forall_mem_cons.mpr ⟨hword, List.forall_mem_singleton.mpr hwidget⟩)

theorem steady_readSetting (s : Settings) (k : String) : Steady fun l => readSetting l s k := by
  intro v l l' hl hl'
  simp only [readSetting]
  split
  · rfl
  · exact ((SteadyOn.asList fun x _ => steady_asName x).asOption.map _) l l' hl hl'
  · exact ((SteadyOn.asList fun x _ => steady_const decodeField x).asOption.map _) l l' hl hl'
  · exact ((steady_asName v).asOption.map _) l l' hl hl'
  · exact ((steady_decodeBind v).asOption.map _) l l' hl hl'
  · rfl

theorem steady_decodeSelection : Steady decodeSelection := by
  have hread : ∀ d k, Steady fun l => selectionRecord.read l d k := by
    intro d k v l l' hl hl'
    simp only [selectionRecord]
    split
    · exact ((steady_asName v).map _) l l' hl hl'
    · exact ((steady_readSetting d.2 _ v).map _) l l' hl hl'
  intro v l l' hl hl'
  rw [decodeSelection, decodeSelection, Record.steady_decode hread v l l' hl hl']

theorem steady_settingsRecord : Steady settingsRecord.decode :=
  Record.steady_decode steady_readSetting

theorem steady_selectionConfigRecord : Steady selectionConfigRecord.decode := by
  refine Record.steady_decode fun c k v l l' hl hl' => ?_
  simp only [selectionConfigRecord]
  split
  · exact ((steady_settingsRecord v).map _) l l' hl hl'
  · exact ((steady_settingsRecord v).map _) l l' hl hl'
  · exact ((steady_settingsRecord v).map _) l l' hl hl'
  · rfl

theorem steady_configRecord : Steady configRecord.decode :=
  Record.steady_decode fun _ _ => steady_selectionConfigRecord

theorem steady_decodeSelectionDomain : Steady decodeSelectionDomain := by
  have hread : ∀ d k, Steady fun l => selectionDomainRecord.read l d k := by
    intro d k v l l' hl hl'
    simp only [selectionDomainRecord]
    split
    · rfl
    · rfl
    · exact ((steady_asName v).asOption.map _) l l' hl hl'
    · rfl
  intro v l l' hl hl'
  rw [decodeSelectionDomain, decodeSelectionDomain, Record.steady_decode hread v l l' hl hl']

theorem steady_decodeDomain : Steady decodeDomain := by
  intro v
  have hliteral : SteadyOn decodeLiteralDomain v :=
    (SteadyOn.asList fun x _ => steady_value x).map ScaleDomain.literal
  refine .alternatives "DomainSpec" (List.forall_mem_cons.mpr ⟨hliteral,
    List.forall_mem_cons.mpr ⟨(steady_decodeSelectionDomain v).map ScaleDomain.selection,
      List.forall_mem_singleton.mpr ?_⟩⟩)
  exact steady_const (fun v => (asString v).map fun _ => ScaleDomain.data) v

theorem steady_scaleRecord : Steady scaleRecord.decode := by
  refine Record.steady_decode fun s k v l l' hl hl' => ?_
  simp only [scaleRecord]
  split
  · exact ((steady_asName v).asOption.map _) l l' hl hl'
  · exact ((steady_decodeDomain v).asOption.map _) l l' hl hl'
  · rfl

theorem steady_decodeOneName (α : Type) [Vocabulary α] (title member : String) :
    Steady (decodeOneName α title member) := by
  have hread : ∀ a k, Steady fun l => (oneNameRecord α title member).read l a k :=
    fun _ _ v => (steady_asName v).map some
  intro v l l' hl hl'
  rw [decodeOneName, decodeOneName, Record.steady_decodeObject hread v l l' hl hl']

theorem steady_decodeFieldSource : Steady decodeFieldSource := by
  intro v
  exact .alternatives "FieldSpec" (List.forall_mem_cons.mpr
    ⟨steady_const (fun v => (decodeField v).map FieldSource.named) v,
      List.forall_mem_singleton.mpr ((steady_decodeOneName Axis _ _ v).map FieldSource.repeated)⟩)

theorem steady_channelRecord : Steady channelRecord.decode := by
  refine Record.steady_decode fun d k v l l' hl hl' => ?_
  simp only [channelRecord]
  split
  · exact ((steady_decodeFieldSource v).asOption.map _) l l' hl hl'
  · exact ((steady_asName v).asOption.map _) l l' hl hl'
  · exact (((steady_value v).asOption.map _).map _) l l' hl hl'
  · exact ((steady_scaleRecord v).asOption.map _) l l' hl hl'
  · rfl

theorem steady_decodeChannel : Steady decodeChannel := by
  intro v
  exact .alternatives "ChannelSpec" (List.forall_mem_cons.mpr
    ⟨(SteadyOn.asList fun x _ => steady_value x).map fun _ => ChannelSpec.list,
      List.forall_mem_singleton.mpr ((steady_channelRecord v).map ChannelSpec.single)⟩)

theorem steady_decodeMark : Steady decodeMark := by
  intro v
  exact .alternatives "MarkSpec" (List.forall_mem_cons.mpr
    ⟨steady_asName v, List.forall_mem_singleton.mpr (steady_decodeOneName _ _ _ v)⟩)

theorem steady_repeatRecord : Steady repeatRecord.decode := by
  have hstrings : Steady decodeStrings := fun v => .asList fun x _ => steady_const asString x
  refine Record.steady_decode fun r k v l l' hl hl' => ?_
  simp only [repeatRecord]
  split
  · exact ((hstrings v).asOption.map _) l l' hl hl'
  · exact ((hstrings v).asOption.map _) l l' hl hl'
  · rfl

theorem steady_facetRecord : Steady facetRecord.decode :=
  Record.steady_decode fun _ _ v => (steady_channelRecord v).asOption.map fun _ => ()

theorem steady_resolveRecord : Steady resolveRecord.decode :=
  Record.steady_decode fun _ _ _ => .asTable named fun x _ => steady_asName x

/-! ## Views -/

/-- A view, with the views inside it decoded within the limit that is left for them. -/
def nestedViewRecord : Record ViewDraft :=
  { viewRecord (·.refuse .map) (·.refuse .sequence) with
    read := fun limit => (viewRecord (decodeView limit) (decodeViews limit)).read limit }

theorem decodeView_eq (l : Nat) (v : Json.Source) :
    decodeView l v = (nestedViewRecord.decode l v).map ViewDraft.finish := by
  cases l with
  | zero => cases v <;> rfl
  | succ l =>
    have hdecode : (viewRecord (decodeView l) (decodeViews l)).decode (l + 1) v =
        nestedViewRecord.decode (l + 1) v := by
      refine Record.decode_congr ?_ ?_ ?_ ?_ v
      all_goals intros; rfl
    rw [decodeView, hdecode]

theorem decodeViews_eq (l : Nat) (v : Json.Source) : decodeViews l v = asList decodeView l v := by
  cases l <;> cases v <;> rfl

theorem steady_decodeView : Steady decodeView := by
  intro v
  induction hdepth : v.depth using Nat.strongRecOn generalizing v with
  | ind n ih =>
    subst hdepth
    intro l l' hl hl'
    rw [decodeView_eq, decodeView_eq]
    refine congrArg (Except.map ViewDraft.finish) (Record.steadyOn_decode ?_ l l' hl hl')
    intro x hx d k m m' hm hm'
    -- a member is less deep than the view, and the views in a list are less deep than that
    have hview : SteadyOn decodeView x := ih x.depth hx x rfl
    have hviews : SteadyOn decodeViews x := by
      have hlist : SteadyOn (asList decodeView) x :=
        .asList fun y hy => ih y.depth (hy.trans hx) y rfl
      intro l l' hl hl'
      rw [decodeViews_eq, decodeViews_eq, hlist l l' hl hl']
    simp only [nestedViewRecord, viewRecord]
    split
    · rfl
    · exact ((steady_decodeMark x).asOption.map _) m m' hm hm'
    · exact ((SteadyOn.asTable named fun y _ => steady_decodeChannel y).map _) m m' hm hm'
    · exact ((SteadyOn.asTable .ok fun y _ => steady_decodeSelection y).map _) m m' hm hm'
    · exact (hviews.asOption.map _) m m' hm hm'
    · exact (hviews.asOption.map _) m m' hm hm'
    · exact (hviews.asOption.map _) m m' hm hm'
    · exact (hviews.asOption.map _) m m' hm hm'
    · exact ((steady_repeatRecord x).asOption.map _) m m' hm hm'
    · exact ((steady_facetRecord x).asOption.map _) m m' hm hm'
    · exact (hview.asOption.map _) m m' hm hm'
    · exact ((steady_resolveRecord x).map _) m m' hm hm'
    · exact ((steady_configRecord x).asOption.map _) m m' hm hm'
    · rfl

/-! ## Text and value -/

/-- Whatever is read as a value compiles as the value does. -/
theorem compileText_of_read? {v : Json} {text : String}
    (hread : Json.Source.read? text = some v.toSource) (hdepth : v.toSource.depth ≤ textLimit) :
    compileText text = compileValue v := by
  have hdecode : decodeText decodeView text = decodeValue decodeView v := by
    rw [decodeText, hread]
    exact steady_decodeView v.toSource _ _ hdepth (Nat.le_refl _)
  rw [compileText, compileValue, hdecode]

/-- **Text and value are compiled alike.**  A value whose numbers are whole and fit a word, and
whose arrays and objects nest no deeper than a text may, compiles to the same output or fails
with the same error whether it is given as it is, as its compact text or as its indented
text. -/
theorem compileText_eq_compileValue (v : Json) (hnumbers : v.wholeNumbers = true)
    (hdepth : v.toSource.depth ≤ 127) :
    compileText v.compact = compileValue v ∧ compileText v.indented = compileValue v :=
  ⟨compileText_of_read? (Json.read?_compact hnumbers) hdepth,
    compileText_of_read? (Json.read?_indented hnumbers) hdepth⟩

/-- A view of one field, whose name has to be escaped, over a domain of two numbers of which
one fits a signed word only and the other an unsigned word only. -/
def Json.escapedPan : Json :=
  .object [("mark", .string "point"),
    ("encoding", .object [("x", .object [("field", .string "A \"1\"\n"),
      ("type", .string "quantitative"),
      ("scale", .object [("domain", .array [.number (.integer (-9223372036854775808)),
        .number (.integer 18446744073709551615)])])])]),
    ("selection", .object [("grid", .object [("type", .string "interval"),
      ("bind", .string "scales")])])]

theorem compileText_eq_compileValue_escapedPan :
    ∃ o, compileValue .escapedPan = .ok o ∧
      compileText Json.escapedPan.compact = .ok o ∧
      compileText Json.escapedPan.indented = .ok o ∧
      o.artifact.scales.map CompiledScale.raw = [some "grid[\"A \\\"1\\\"\\n\"]"] := by
  obtain ⟨hcompact, hindented⟩ :=
    compileText_eq_compileValue .escapedPan (by decide +kernel) (by decide +kernel)
  have hvalue : compileValue .escapedPan = .ok _ := rfl
  exact ⟨_, hvalue, hcompact.trans hvalue, hindented.trans hvalue, by decide +kernel⟩

end BrushLink
