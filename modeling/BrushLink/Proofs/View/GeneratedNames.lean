import BrushLink.Proofs.Number.Decimal
import BrushLink.Proofs.View.Repetition
import BrushLink.Proofs.View.Sites

/-! # Generated names

A view without a name of its own is called after its parent, an underscore, and a label.  The
labels of the children of one view differ in numbers, and a number ends where no digit follows
it: that `layer_1` is the beginning of `layer_11` makes no view of the one be called like a
view of the other, as all names beneath `layer_1` go on with an underscore (`Continues`).  So
the names beneath two siblings are apart, and no name beneath a view is that of the view itself.

It follows that generated names never collide, however deep and wide a specification is
(`ViewTree.ofSpec_unnamed`).  A repeated template may have a name: no view gets it.
-/
namespace BrushLink

/-! ## Where numbers and names end -/

/-- The text can follow a name without becoming a part of its last label: it is empty or begins
with an underscore. -/
def Breaks (rest : List Char) : Prop := ∀ c ∈ rest.head?, c = '_'

/-- The text is the name, or goes on after it with an underscore. -/
def Continues (name text : String) : Prop :=
  ∃ rest, Breaks rest ∧ text.toList = name.toList ++ rest

/-- No text continues both names. -/
def Apart (a b : String) : Prop :=
  ∀ r r', Breaks r → Breaks r' → a.toList ++ r ≠ b.toList ++ r'

theorem breaks_nil : Breaks [] := fun _ h => nomatch h

theorem breaks_cons (rest : List Char) : Breaks ('_' :: rest) := fun _ h => (Option.some.inj h).symm

theorem Breaks.append {r r' : List Char} (h : Breaks r) (h' : Breaks r') : Breaks (r ++ r') := by
  cases r with
  | nil => exact h'
  | cons c r => exact h

theorem Continues.refl (name : String) : Continues name name :=
  ⟨[], breaks_nil, (List.append_nil _).symm⟩

theorem Continues.trans {a b c : String} (hab : Continues a b) (hbc : Continues b c) :
    Continues a c := by
  obtain ⟨r, hr, hb⟩ := hab
  obtain ⟨r', hr', hc⟩ := hbc
  exact ⟨r ++ r', hr.append hr', by rw [hc, hb, List.append_assoc]⟩

theorem Apart.append {a b : String} (h : Apart a b) (stem : String) :
    Apart (stem ++ a) (stem ++ b) := by
  intro r r' hr hr' heq
  rw [String.toList_append, String.toList_append, List.append_assoc, List.append_assoc] at heq
  exact h r r' hr hr' (List.append_cancel_left heq)

theorem Apart.not_continues {a b text : String} (h : Apart a b) (ha : Continues a text) :
    ¬ Continues b text := by
  rintro ⟨r', hr', hb⟩
  obtain ⟨r, hr, ha⟩ := ha
  exact h r r' hr hr' (ha.symm.trans hb)

theorem takeWhile_isDigit (n : Nat) {r : List Char} (hr : Breaks r) :
    (n.repr.toList ++ r).takeWhile Char.isDigit = Nat.toDigits 10 n := by
  have hr : r.takeWhile Char.isDigit = [] := by
    cases r with
    | nil => rfl
    | cons c r =>
      obtain rfl := hr c rfl
      rfl
  rw [Nat.toList_repr, List.takeWhile_append_of_pos fun _ => Number.isDigit_of_mem_toDigits, hr,
    List.append_nil]

/-- A number can be told from what follows it. -/
theorem repr_append_inj {i j : Nat} {r r' : List Char} (hr : Breaks r) (hr' : Breaks r')
    (h : i.repr.toList ++ r = j.repr.toList ++ r') : i = j ∧ r = r' := by
  have hdigits : Nat.toDigits 10 i = Nat.toDigits 10 j := by
    rw [← takeWhile_isDigit i hr, h, takeWhile_isDigit j hr']
  obtain rfl : i = j := by
    rw [← Number.ofDigits_toDigits i, hdigits, Number.ofDigits_toDigits]
  exact ⟨rfl, List.append_cancel_left h⟩

theorem apart_repr {i j : Nat} (h : i ≠ j) : Apart i.repr j.repr :=
  fun _ _ hr hr' heq => h (repr_append_inj hr hr' heq).1

/-! ## Labels of instances -/

namespace RepeatAxes

theorem breaks_suffix (axis : Axis) (stop : Option (String × Nat)) :
    Breaks (suffix axis stop).toList := by
  cases stop with
  | none => exact breaks_nil
  | some stop =>
    rw [suffix, String.append_assoc, String.append_assoc, String.toList_append]
    exact breaks_cons _

theorem nodup_stops (axes : RepeatAxes) (axis : Axis) : (axes.stops axis).Nodup := by
  rw [stops]
  cases axes.fields? axis with
  | none => exact List.nodup_singleton none
  | some fs =>
    have hindices : (fs.zipIdx.map Prod.snd).Nodup := by
      rw [List.zipIdx_map_snd]
      exact List.nodup_range'
    exact hindices.of_map.map (Option.some_injective _)

/-- A stop can be told from what it adds to a name. -/
theorem suffix_append_inj {axes : RepeatAxes} {axis : Axis} {a b : Option (String × Nat)}
    (ha : a ∈ axes.stops axis) (hb : b ∈ axes.stops axis) {r r' : List Char} (hr : Breaks r)
    (hr' : Breaks r') (h : (suffix axis a).toList ++ r = (suffix axis b).toList ++ r') :
    a = b ∧ r = r' := by
  rw [stops] at ha hb
  cases hfs : axes.fields? axis with
  | none =>
    rw [hfs] at ha hb
    obtain rfl := List.mem_singleton.mp ha
    obtain rfl := List.mem_singleton.mp hb
    exact ⟨rfl, h⟩
  | some fs =>
    rw [hfs] at ha hb
    obtain ⟨⟨f, i⟩, hf, rfl⟩ := List.mem_map.mp ha
    obtain ⟨⟨g, j⟩, hg, rfl⟩ := List.mem_map.mp hb
    simp only [suffix, String.toList_append, List.append_assoc] at h
    have hnumber := List.append_cancel_left (List.append_cancel_left (List.append_cancel_left h))
    obtain ⟨rfl, rfl⟩ := repr_append_inj hr hr' hnumber
    -- the index tells the field
    have hfg : some f = some g :=
      (List.mem_zipIdx_iff_getElem?.mp hf).symm.trans (List.mem_zipIdx_iff_getElem?.mp hg)
    obtain rfl := Option.some.inj hfg
    exact ⟨rfl, rfl⟩

theorem instances_eq_map_product (axes : RepeatAxes) :
    axes.instances =
      (axes.stops .row ×ˢ axes.stops .column).map fun p => instanceAt p.1 p.2 := by
  rw [instances_eq]
  simp only [SProd.sprod, List.product, List.map_flatMap, List.map_map, Function.comp_def]

/-- The labels of instances are apart. -/
theorem pairwise_apart_instances (axes : RepeatAxes) :
    axes.instances.Pairwise fun i j => Apart i.label j.label := by
  have hnodup := (axes.nodup_stops .row).product (axes.nodup_stops .column)
  rw [instances_eq_map_product, List.pairwise_map]
  refine List.Pairwise.imp_of_mem ?_ hnodup
  rintro ⟨a, b⟩ ⟨a', b'⟩ hab hab' hne r r' hr hr' heq
  obtain ⟨ha, hb⟩ := List.pair_mem_product.mp hab
  obtain ⟨ha', hb'⟩ := List.pair_mem_product.mp hab'
  simp only [instanceAt, String.toList_append, List.append_assoc] at heq
  obtain ⟨rfl, hrest⟩ := suffix_append_inj ha ha' ((breaks_suffix .column b).append hr)
    ((breaks_suffix .column b').append hr') (List.append_cancel_left heq)
  obtain ⟨rfl, _⟩ := suffix_append_inj hb hb' hr hr' hrest
  exact hne rfl

end RepeatAxes

/-! ## Specifications without names -/

namespace ViewSpec

mutual

/-- No view beneath has a name of its own.  That of a repeated template is nobody's. -/
def unnamedBelow : ViewSpec → Bool
  | unit _ _ | malformed _ _ => true
  | layered _ children | concatenated _ children => unnamedAll children
  | repeated _ _ template => template.unnamedBelow
  | faceted _ template => template.head.name.isNone && template.unnamedBelow

def unnamedAll : List ViewSpec → Bool
  | [] => true
  | c :: cs => c.head.name.isNone && c.unnamedBelow && unnamedAll cs

end

/-- No view has a name of its own. -/
def unnamed (spec : ViewSpec) : Bool := spec.head.name.isNone && spec.unnamedBelow

theorem unnamed_iff {spec : ViewSpec} :
    spec.unnamed ↔ spec.head.name = none ∧ spec.unnamedBelow := by
  rw [unnamed, Bool.and_eq_true, Option.isNone_iff_eq_none]

theorem unnamedAll_iff {cs : List ViewSpec} : unnamedAll cs ↔ ∀ c ∈ cs, c.unnamed := by
  induction cs with
  | nil => simp [unnamedAll]
  | cons c cs ih => simp [unnamedAll, unnamed, ih]

end ViewSpec

namespace Site
variable {s q : Site}

/-- What labels begin with. -/
def labelWords : List String := ["layer_", "concat_", "repeat", "child"]

/-- No label begins like the name of the root, which has no parent to be called after. -/
theorem not_isPrefix_root : ∀ word ∈ labelWords, ¬ word.toList <+: "root".toList := by decide

/-- A site goes by a label after the stem of the site above. -/
def Labelled (s q : Site) : Prop :=
  ∃ word ∈ labelWords, ∃ rest, q.name = s.stem ++ (word ++ rest)

theorem unnamed_numbered {word : String} {children : List ViewSpec}
    (hs : ViewSpec.unnamedAll children) (hword : word ∈ labelWords)
    (hq : q ∈ s.numbered word children) : q.spec.unnamedBelow ∧ s.Labelled q := by
  obtain ⟨i, c, hc, rfl⟩ := exists_of_mem_numbered hq
  have hc : c.unnamed := ViewSpec.unnamedAll_iff.mp hs c (List.mem_of_getElem? hc)
  obtain ⟨hname, hbelow⟩ := ViewSpec.unnamed_iff.mp hc
  refine ⟨hbelow, word, hword, i.repr, ?_⟩
  rw [below, hname]
  rfl

/-- Without names of their own, the sites beneath a site go by their labels. -/
theorem unnamed_parts (hs : s.spec.unnamedBelow) (hq : q ∈ s.parts) :
    q.spec.unnamedBelow ∧ s.Labelled q := by
  obtain ⟨name, stem, around, spec⟩ := s
  cases spec with
  | unit _ _ | malformed _ _ => cases hq
  | layered _ children | concatenated _ children => exact unnamed_numbered hs (by decide) hq
  | repeated _ axes template =>
    obtain ⟨i, hi, rfl⟩ := List.mem_map.mp hq
    refine ⟨hs, "repeat", by decide, ?_⟩
    rw [RepeatAxes.instances_eq_map_product] at hi
    obtain ⟨p, _, rfl⟩ := List.mem_map.mp hi
    exact ⟨_, congrArg (stem ++ ·) (String.append_assoc ..)⟩
  | faceted _ template =>
    obtain rfl := List.mem_singleton.mp hq
    obtain ⟨hname, hbelow⟩ := ViewSpec.unnamed_iff.mp hs
    refine ⟨hbelow, "child", by decide, "", ?_⟩
    rw [below, hname]
    rfl

theorem pairwise_apart_numbered {word : String} {children : List ViewSpec}
    (h : ViewSpec.unnamedAll children) :
    (s.numbered word children).Pairwise fun p q => Apart p.name q.name := by
  have hname : ∀ c ∈ children, c.head.name = none := fun c hc =>
    (ViewSpec.unnamed_iff.mp (ViewSpec.unnamedAll_iff.mp h c hc)).1
  rw [List.pairwise_iff_getElem]
  intro i j hi hj hij
  simp only [numbered, List.getElem_mapIdx, below, hname _ (List.getElem_mem _), Option.getD_none]
  exact ((apart_repr (Nat.ne_of_lt hij)).append word).append s.stem

/-- The names of the sites directly beneath a site are apart. -/
theorem pairwise_apart_parts (hs : s.spec.unnamedBelow) :
    s.parts.Pairwise fun p q => Apart p.name q.name := by
  obtain ⟨name, stem, around, spec⟩ := s
  cases spec with
  | unit _ _ | malformed _ _ => exact List.Pairwise.nil
  | layered _ children | concatenated _ children => exact pairwise_apart_numbered hs
  | repeated _ axes template =>
    refine List.pairwise_map.mpr (axes.pairwise_apart_instances.imp ?_)
    intro i j hij
    exact hij.append stem
  | faceted _ template => exact List.pairwise_singleton _ _

theorem name_of_mem_parts (hs : s.spec.unnamedBelow) (hstem : s.stem = s.name ++ "_")
    (hq : q ∈ s.parts) : ∃ rest, q.name.toList = s.name.toList ++ '_' :: rest := by
  obtain ⟨_, word, _, rest, hname⟩ := unnamed_parts hs hq
  refine ⟨(word ++ rest).toList, ?_⟩
  rw [hname, hstem, String.toList_append, String.toList_append, List.append_assoc]
  rfl

/-- The names beneath a site go on after its own. -/
theorem continues_of_mem_all (hs : s.spec.unnamedBelow) (hstem : s.stem = s.name ++ "_")
    (hq : q ∈ s.all) : Continues s.name q.name := by
  induction s using induction_parts with
  | parts s ih =>
    rw [all_eq, List.mem_cons, List.mem_flatMap] at hq
    rcases hq with rfl | ⟨p, hp, hq⟩
    · exact Continues.refl _
    · obtain ⟨rest, hrest⟩ := name_of_mem_parts hs hstem hp
      have hsp : Continues s.name p.name := ⟨_, breaks_cons rest, hrest⟩
      exact hsp.trans (ih p hp (unnamed_parts hs hp).1 (stem_of_mem_parts hp) hq)

/-- The names at a site and beneath it differ, if those beneath each of its parts do and none of
them goes on to the name of the site. -/
theorem names_nodup_of_parts (hs : s.spec.unnamedBelow)
    (hown : ∀ p ∈ s.parts, ¬ Continues p.name s.name)
    (hparts : ∀ p ∈ s.parts, (p.all.map name).Nodup) : (s.all.map name).Nodup := by
  have hgoes : ∀ p ∈ s.parts, ∀ q ∈ p.all, Continues p.name q.name := fun p hp q hq =>
    continues_of_mem_all (unnamed_parts hs hp).1 (stem_of_mem_parts hp) hq
  rw [all_eq, List.map_cons, List.map_flatMap, List.nodup_cons]
  constructor
  · intro hmem
    obtain ⟨p, hp, hmem⟩ := List.mem_flatMap.mp hmem
    obtain ⟨q, hq, hname⟩ := List.mem_map.mp hmem
    exact hown p hp (hname ▸ hgoes p hp q hq)
  · refine List.nodup_flatMap.mpr ⟨hparts, ?_⟩
    refine List.Pairwise.imp_of_mem ?_ (pairwise_apart_parts hs)
    intro p p' hp hp' hapart text hmem hmem'
    obtain ⟨q, hq, rfl⟩ := List.mem_map.mp hmem
    obtain ⟨q', hq', hname⟩ := List.mem_map.mp hmem'
    exact hapart.not_continues (hgoes p hp q hq) (hname ▸ hgoes p' hp' q' hq')

theorem names_nodup (hs : s.spec.unnamedBelow) (hstem : s.stem = s.name ++ "_") :
    (s.all.map name).Nodup := by
  induction s using induction_parts with
  | parts s ih =>
    apply names_nodup_of_parts hs
    · -- names beneath are longer
      rintro p hp ⟨r, _, heq⟩
      obtain ⟨rest, hrest⟩ := name_of_mem_parts hs hstem hp
      have hlength := congrArg List.length heq
      rw [hrest, List.length_append, List.length_append, List.length_cons] at hlength
      omega
    · exact fun p hp => ih p hp (unnamed_parts hs hp).1 (stem_of_mem_parts hp)

theorem content_ne_duplicateView (s : Site) (name : String) :
    s.content ≠ .error (.duplicateView name) := by
  intro h
  obtain ⟨_, stem, around, spec⟩ := s
  cases spec with
  | unit head mark =>
    obtain ⟨_, _, he⟩ := Place.unitView_eq_error.mp (Except.map_eq_error.mp h)
    cases he
  | layered _ _ | concatenated _ _ | repeated _ _ _ | faceted _ _ | malformed _ _ => cases h

end Site

/-- The root is called by a word that no label begins with. -/
theorem ViewSpec.sites_names_nodup {spec : ViewSpec} (h : spec.unnamed) :
    (spec.sites.map Site.name).Nodup := by
  obtain ⟨hname, hbelow⟩ := unnamed_iff.mp h
  apply Site.names_nodup_of_parts hbelow
  · rintro p hp ⟨r, _, heq⟩
    obtain ⟨_, word, hword, rest, hp⟩ := Site.unnamed_parts hbelow hp
    have hroot : spec.site.name = "root" := by
      rw [site, hname]
      rfl
    have hstem : spec.site.stem = "" := rfl
    rw [hroot, hp, hstem, String.empty_append, String.toList_append, List.append_assoc] at heq
    exact Site.not_isPrefix_root word hword ⟨_, heq.symm⟩
  · exact fun p hp => Site.names_nodup (Site.unnamed_parts hbelow hp).1 (Site.stem_of_mem_parts hp)

namespace ViewTree

/-- Views that are all called by generated names have names of their own each, and none of them
is reported as a duplicate. -/
theorem ofSpec_unnamed (spec : ViewSpec) (h : spec.unnamed) :
    (spec.sites.map Site.name).Nodup ∧ ∀ name, ofSpec spec ≠ .error (.duplicateView name) := by
  have hnodup := spec.sites_names_nodup h
  refine ⟨hnodup, fun name herror => ?_⟩
  obtain ⟨before, s, after, hsites, _, hs⟩ :=
    Site.firstFault_eq_some_iff.mp (ofSpec_eq_error_iff.mp herror)
  rcases Site.fault?_eq_some_iff.mp hs with ⟨htaken, _⟩ | ⟨_, hcontent⟩
  · rw [hsites, List.map_append, List.map_cons] at hnodup
    exact List.disjoint_of_nodup_append hnodup htaken List.mem_cons_self
  · exact s.content_ne_duplicateView name hcontent

end ViewTree

/-- Twelve layers, of which the second has layers itself, and a table of equal cells whose
template has a name. -/
def ViewSpec.crowded : ViewSpec :=
  .concatenated default
    [.layered default (.unit default .point ::
        .layered default (List.replicate 2 (.unit default .point)) ::
        List.replicate 10 (.unit default .point)),
      .repeated default (.grid ["A", "A"] ["A", "A"])
        (.faceted { (default : ViewHead) with name := some "cell" } (.unit default .point))]

theorem ViewTree.ofSpec_unnamed_crowded :
    ViewSpec.crowded.unnamed ∧
      (∀ name ∈ ["concat_0_layer_1", "concat_0_layer_1_layer_1", "concat_0_layer_11",
        "concat_1_repeat_row_1_column_1_child"], name ∈ ViewSpec.crowded.sites.map Site.name) ∧
      (ViewSpec.crowded.sites.map Site.name).Nodup ∧
      ∀ name, ofSpec .crowded ≠ .error (.duplicateView name) :=
  ⟨by decide, by decide +kernel, ofSpec_unnamed .crowded (by decide)⟩

end BrushLink
