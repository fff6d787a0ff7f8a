import BrushLink.Proofs.Failure

/-! # The views that a specification asks for

A specification asks for views before any tree is made: it says which instances a repeated
template has, which children come of them, and what each is to be called.  A `Site` is a view
that is asked for.  It knows the instances of repeated templates that it belongs to, at every
depth, while the view that comes of it remembers the innermost one only.

What lies directly beneath a site is told once, by `Site.parts`, and all sites of a
specification are listed as a walk would meet them (`Site.all`).  Expansion does the same thing
at each of them: check the name, settle the content, add the view and go on to the parts
(`ViewTree.expand_eq`).  So making the tree fails exactly if there is a fault with one of the
sites, and then with the first fault on the walk (`ViewTree.ofSpec_eq_error_iff`).
-/
namespace BrushLink

namespace Place
variable {p : Place} {head : ViewHead} {mark : Mark}

theorem unitView_eq_ok {u : UnitView} :
    p.unitView head mark = .ok u ↔ head.encoding.values.findSome? p.danglingAxis? = none ∧
      u = ⟨mark, head.encoding.filterMap fun _ => p.channelDef?, head.selections, p.repeater⟩ := by
  rw [unitView]
  cases head.encoding.values.findSome? p.danglingAxis? <;> simp [eq_comm]

theorem unitView_eq_error {e : CompileError} :
    p.unitView head mark = .error e ↔ ∃ axis,
      head.encoding.values.findSome? p.danglingAxis? = some axis ∧
        e = .unresolvedRepeat p.name axis := by
  rw [unitView]
  cases head.encoding.values.findSome? p.danglingAxis? <;> simp [eq_comm]

end Place

/-- A view that a specification asks for. -/
structure Site where
  name : String
  /-- What the names of the sites beneath it begin with. -/
  stem : String
  /-- The instances of repeated templates that the site belongs to, innermost first. -/
  around : List Repeater
  spec : ViewSpec

namespace Site
variable {s q : Site}

/-! ## What lies beneath a site -/

/-- A site beneath another one.  A given name wins over the label. -/
def below (s : Site) (given : Option String) (label : String) (around : List Repeater)
    (spec : ViewSpec) : Site :=
  let name := given.getD (s.stem ++ label)
  ⟨name, name ++ "_", around, spec⟩

/-- The sites of children that are labelled by a word and their index. -/
def numbered (s : Site) (word : String) (children : List ViewSpec) : List Site :=
  children.mapIdx fun i c => s.below c.head.name (word ++ i.repr) s.around c

/-- The sites directly beneath a site, in order. -/
def parts (s : Site) : List Site :=
  match s.spec with
  | .unit _ _ | .malformed _ _ => []
  | .layered _ children => s.numbered "layer_" children
  | .concatenated _ children => s.numbered "concat_" children
  | .repeated _ axes template =>
    axes.instances.map fun i => s.below none i.label (i.repeater :: s.around) template
  | .faceted _ template => [s.below template.head.name "child" s.around template]

theorem exists_of_mem_numbered {word : String} {children : List ViewSpec}
    (h : q ∈ s.numbered word children) : ∃ (i : Nat) (c : ViewSpec), children[i]? = some c ∧
      q = s.below c.head.name (word ++ i.repr) s.around c := by
  obtain ⟨i, hi, rfl⟩ := List.mem_mapIdx.mp h
  exact ⟨i, _, List.getElem?_eq_getElem hi, rfl⟩

/-- Every site beneath another one is made by `below`, of a smaller specification. -/
theorem exists_of_mem_parts (h : q ∈ s.parts) : ∃ given label around spec,
    q = s.below given label around spec ∧ sizeOf spec < sizeOf s.spec := by
  obtain ⟨name, stem, around, spec⟩ := s
  cases spec with
  | unit _ _ | malformed _ _ => cases h
  | layered _ children | concatenated _ children =>
    obtain ⟨i, c, hc, rfl⟩ := exists_of_mem_numbered h
    refine ⟨_, _, _, c, rfl, ?_⟩
    have hlt := List.sizeOf_lt_of_mem (List.mem_of_getElem? hc)
    simp only [ViewSpec.layered.sizeOf_spec, ViewSpec.concatenated.sizeOf_spec]
    omega
  | repeated _ axes template =>
    obtain ⟨i, _, rfl⟩ := List.mem_map.mp h
    refine ⟨_, _, _, template, rfl, ?_⟩
    simp only [ViewSpec.repeated.sizeOf_spec]
    omega
  | faceted _ template =>
    rw [List.mem_singleton.mp h]
    refine ⟨_, _, _, template, rfl, ?_⟩
    simp only [ViewSpec.faceted.sizeOf_spec]
    omega

theorem sizeOf_part (h : q ∈ s.parts) : sizeOf q.spec < sizeOf s.spec := by
  obtain ⟨_, _, _, _, rfl, hlt⟩ := exists_of_mem_parts h
  exact hlt

/-- A site and all beneath it, each before its parts. -/
def all (s : Site) : List Site := s :: s.parts.attach.flatMap fun q => q.1.all
termination_by sizeOf s.spec
decreasing_by exact sizeOf_part q.2

theorem all_eq (s : Site) : s.all = s :: s.parts.flatMap all := by
  rw [all, List.flatMap_subtype fun _ _ => rfl, List.unattach_attach]

theorem mem_all_self (s : Site) : s ∈ s.all := by
  rw [all_eq]
  exact List.mem_cons_self

theorem mem_all_of_mem_parts {r : Site} (hq : q ∈ s.parts) (hr : r ∈ q.all) : r ∈ s.all := by
  rw [all_eq]
  exact List.mem_cons_of_mem s (List.mem_flatMap.mpr ⟨q, hq, hr⟩)

@[elab_as_elim]
theorem induction_parts {motive : Site → Prop}
    (parts : ∀ s, (∀ q ∈ s.parts, motive q) → motive s) (s : Site) : motive s := by
  induction s using all.induct with
  | case1 s ih => exact parts s fun q hq => ih ⟨q, hq⟩

theorem stem_of_mem_parts (h : q ∈ s.parts) : q.stem = q.name ++ "_" := by
  obtain ⟨_, _, _, _, rfl, _⟩ := exists_of_mem_parts h
  rfl

/-! ## Views and faults -/

/-- Where the view of a site goes. -/
def place (s : Site) (parent : Option ViewId) : Place := ⟨s.name, parent, s.around.head?⟩

/-- What the view of a site is, unless that cannot be settled. -/
def content (s : Site) : Except CompileError ViewContent :=
  match s.spec with
  | .unit head mark => ViewContent.unit <$> (s.place none).unitView head mark
  | .layered head _ => .ok (.composite ⟨.layer, head.resolve⟩)
  | .concatenated head _ => .ok (.composite ⟨.concat, head.resolve⟩)
  | .repeated head _ _ => .ok (.composite ⟨.repetition, head.resolve⟩)
  | .faceted head _ => .ok (.composite ⟨.facet, head.resolve⟩)
  | .malformed _ fault => .error (.malformedView s.name fault)

/-- What is wrong with a site, where some names are taken. -/
def fault? (taken : List String) (s : Site) : Option CompileError :=
  if s.name ∈ taken then some (.duplicateView s.name)
  else
    match s.content with
    | .error e => some e
    | .ok _ => none

/-- The first thing that is wrong with sites, each of which takes its name. -/
def firstFault (taken : List String) : List Site → Option CompileError
  | [] => none
  | s :: ss => (s.fault? taken).or (firstFault (taken ++ [s.name]) ss)

/-- There is nothing wrong with sites: no two have one name, and what their views are is
settled. -/
structure Faultless (ss : List Site) : Prop where
  names : (ss.map name).Nodup
  contents : ∀ s ∈ ss, ∃ content, s.content = .ok content

theorem fault?_eq_none_iff {taken : List String} :
    s.fault? taken = none ↔ s.name ∉ taken ∧ ∃ content, s.content = .ok content := by
  rw [fault?]
  by_cases h : s.name ∈ taken
  · simp [h]
  · cases s.content <;> simp [h]

theorem fault?_eq_some_iff {taken : List String} {e : CompileError} :
    s.fault? taken = some e ↔ s.name ∈ taken ∧ e = .duplicateView s.name ∨
      s.name ∉ taken ∧ s.content = .error e := by
  rw [fault?]
  by_cases h : s.name ∈ taken
  · simp [h, eq_comm]
  · cases s.content <;> simp [h]

theorem firstFault_append (taken : List String) (ss rs : List Site) :
    firstFault taken (ss ++ rs) =
      (firstFault taken ss).or (firstFault (taken ++ ss.map name) rs) := by
  induction ss generalizing taken with
  | nil => simp [firstFault]
  | cons s ss ih =>
    rw [List.cons_append, firstFault, firstFault, ih, Option.or_assoc, List.map_cons,
      List.append_assoc]
    rfl

theorem firstFault_eq_some_iff {taken : List String} {ss : List Site} {e : CompileError} :
    firstFault taken ss = some e ↔ ∃ before s after, ss = before ++ s :: after ∧
      firstFault taken before = none ∧ s.fault? (taken ++ before.map name) = some e := by
  constructor
  · intro h
    induction ss generalizing taken with
    | nil => cases h
    | cons s ss ih =>
      rw [firstFault] at h
      rcases Option.or_eq_some_iff.mp h with h | ⟨hs, h⟩
      · exact ⟨[], s, ss, rfl, rfl, by rwa [List.map_nil, List.append_nil]⟩
      · obtain ⟨before, r, after, rfl, hbefore, hr⟩ := ih h
        refine ⟨s :: before, r, after, rfl, ?_, ?_⟩
        · rw [firstFault, hs, hbefore]
          rfl
        · rwa [List.map_cons, List.append_cons]
  · rintro ⟨before, s, after, rfl, hbefore, hs⟩
    rw [firstFault_append, hbefore, firstFault, hs]
    rfl

theorem firstFault_eq_none_iff {ss : List Site} : firstFault [] ss = none ↔ Faultless ss := by
  have hrun : ∀ taken, firstFault taken ss = none ↔
      Faultless ss ∧ ∀ s ∈ ss, s.name ∉ taken := by
    induction ss with
    | nil => simp [firstFault, Faultless.mk]
    | cons s ss ih =>
      intro taken
      rw [firstFault, Option.or_eq_none_iff, fault?_eq_none_iff, ih]
      constructor
      · rintro ⟨⟨hs, hcontent⟩, ⟨hnames, hcontents⟩, hfree⟩
        refine ⟨⟨?_, List.forall_mem_cons.mpr ⟨hcontent, hcontents⟩⟩, ?_⟩
        · refine List.nodup_cons.mpr ⟨fun hmem => ?_, hnames⟩
          obtain ⟨q, hq, he⟩ := List.mem_map.mp hmem
          exact hfree q hq (List.mem_append_right _ (List.mem_singleton.mpr he))
        · exact List.forall_mem_cons.mpr
            ⟨hs, fun q hq hmem => hfree q hq (List.mem_append_left _ hmem)⟩
      · rintro ⟨⟨hnames, hcontents⟩, hfree⟩
        obtain ⟨hname, hnames⟩ := List.nodup_cons.mp hnames
        obtain ⟨hcontent, hcontents⟩ := List.forall_mem_cons.mp hcontents
        obtain ⟨hs, hfree⟩ := List.forall_mem_cons.mp hfree
        refine ⟨⟨hs, hcontent⟩, ⟨hnames, hcontents⟩, fun q hq hmem => ?_⟩
        rcases List.mem_append.mp hmem with hmem | hmem
        · exact hfree q hq hmem
        · exact hname (List.mem_map.mpr ⟨q, hq, List.mem_singleton.mp hmem⟩)
  rw [hrun []]
  exact and_iff_left fun _ _ => List.not_mem_nil

end Site

/-- The outermost site of a specification. -/
def ViewSpec.site (spec : ViewSpec) : Site := ⟨spec.head.name.getD "root", "", [], spec⟩

/-- The sites of a specification, as a walk meets them. -/
def ViewSpec.sites (spec : ViewSpec) : List Site := spec.site.all

namespace ViewTree
variable {t t' : ViewTree} {s q : Site} {v : ViewId} {parent : Option ViewId}

/-! ## Expansion, site by site -/

/-- Add the views of several sites beneath a view. -/
def expandParts (t : ViewTree) (v : ViewId) (qs : List Site) : Except CompileError ViewTree :=
  qs.foldlM (fun t q => t.expand (q.place (some v)) q.spec) t

/-- The names of children start as the site says, if its view is the root exactly if nothing
is put before them. -/
theorem childName_eq (hstem : s.stem = if v = root then "" else s.name ++ "_")
    (given : Option String) (label : String) :
    Place.childName v s.name given label = given.getD (s.stem ++ label) := by
  cases given with
  | some name => rfl
  | none =>
    rw [Place.childName, hstem, Option.getD_none]
    split
    · exact String.empty_append.symm
    · rfl

theorem expandAll_eq (hstem : s.stem = if v = root then "" else s.name ++ "_")
    (parent : Option ViewId) (word : String) (cs : List ViewSpec) (t : ViewTree) (index : Nat) :
    t.expandAll v (s.place parent) word index cs =
      t.expandParts v (cs.mapIdx fun i c =>
        s.below c.head.name (word ++ (index + i).repr) s.around c) := by
  induction cs generalizing t index with
  | nil => rfl
  | cons c cs ih =>
    have hplace : Place.mk (Place.childName v (s.place parent).name c.head.name
        (word ++ index.repr)) (some v) (s.place parent).repeater =
        (s.below c.head.name (word ++ index.repr) s.around c).place (some v) := by
      rw [Site.place, childName_eq hstem]
      rfl
    rw [expandAll, hplace, List.mapIdx_cons, expandParts, List.foldlM_cons]
    refine bind_congr fun t' => ?_
    rw [ih]
    simp only [Nat.add_assoc, Nat.add_comm 1]
    rfl

/-- **Expansion does the same at every site**: the name is checked, the content settled, the
view added, and then the parts follow. -/
theorem expand_eq (hstem : s.stem = if t.size = root then "" else s.name ++ "_")
    (parent : Option ViewId) :
    t.expand (s.place parent) s.spec = (do
      t.checkName s.name
      let content ← s.content
      let t' ← t.addAt (s.place parent) content
      t'.expandParts t.size s.parts) := by
  have hname := childName_eq hstem
  obtain ⟨name, stem, around, spec⟩ := s
  simp only [Site.place] at hname ⊢
  cases spec with
  | malformed _ fault =>
    rw [expand]
    rfl
  | unit head mark =>
    rw [expand]
    refine bind_congr fun _ => ?_
    rw [Site.content, bind_map_left]
    exact bind_congr fun u => (bind_pure _).symm
  | layered head children | concatenated head children =>
    rw [expand]
    refine bind_congr fun _ => bind_congr fun t' => ?_
    refine (expandAll_eq hstem parent _ children t' 0).trans ?_
    simp only [Nat.zero_add]
    rfl
  | repeated head axes template =>
    rw [expand]
    refine bind_congr fun _ => bind_congr fun t' => ?_
    rw [expandParts, Site.parts, List.foldlM_map]
    simp only [hname]
    rfl
  | faceted head template =>
    rw [expand]
    refine bind_congr fun _ => bind_congr fun t' => ?_
    simp only [hname]
    exact (bind_pure _).symm

/-! ## The outcome of an expansion -/

/-- What is to come of adding the views of sites: the first fault, or the names of all of
them. -/
def Outcome (t : ViewTree) (ss : List Site) : Except CompileError ViewTree → Prop
  | .ok t' =>
    Site.firstFault (t.nodes.map ViewNode.name) ss = none ∧
      t'.nodes.map ViewNode.name = t.nodes.map ViewNode.name ++ ss.map Site.name
  | .error e => Site.firstFault (t.nodes.map ViewNode.name) ss = some e

theorem Outcome.append {ss rs : List Site} {r : Except CompileError ViewTree}
    {f : ViewTree → Except CompileError ViewTree} (h : t.Outcome ss r)
    (hf : ∀ t₁, r = .ok t₁ → t₁.Outcome rs (f t₁)) : t.Outcome (ss ++ rs) (r >>= f) := by
  cases r with
  | error e =>
    change Site.firstFault _ _ = some e
    rw [Site.firstFault_append, h]
    rfl
  | ok t₁ =>
    obtain ⟨hnone, hnames⟩ := h
    have hrest := hf t₁ rfl
    change t.Outcome (ss ++ rs) (f t₁)
    cases hr : f t₁ with
    | error e =>
      rw [hr, Outcome, hnames] at hrest
      rw [Outcome, Site.firstFault_append, hnone, hrest]
      rfl
    | ok t₂ =>
      rw [hr, Outcome, hnames] at hrest
      rw [Outcome, Site.firstFault_append, hnone, hrest.1, hrest.2, List.map_append,
        List.append_assoc]
      exact ⟨rfl, rfl⟩

theorem checkName_of_mem {name : String} (h : name ∈ t.nodes.map ViewNode.name) :
    t.checkName name = .error (.duplicateView name) := by
  cases hfind : t.find? name with
  | some v => rw [checkName, hfind]
  | none =>
    have hfree : t.checkName name = .ok () := by rw [checkName, hfind]
    exact absurd h (checkName_eq_ok.mp hfree)

/-- Adding the view of a site alone. -/
theorem addAt_outcome (hv : t.Vacant (s.place parent)) :
    t.Outcome [s] (do
      t.checkName s.name
      let content ← s.content
      t.addAt (s.place parent) content) := by
  have hsingle : ∀ taken, Site.firstFault taken [s] = s.fault? taken := fun _ => Option.or_none
  by_cases hname : s.name ∈ t.nodes.map ViewNode.name
  · rw [checkName_of_mem hname]
    change Site.firstFault _ [s] = _
    rw [hsingle, Site.fault?, if_pos hname]
  · rw [checkName_eq_ok.mpr hname]
    cases hcontent : s.content with
    | error e =>
      change Site.firstFault _ [s] = _
      rw [hsingle, Site.fault?, if_neg hname, hcontent]
    | ok content =>
      obtain ⟨t', ht'⟩ := hv.exists_addAt content
      change t.Outcome [s] (t.addAt (s.place parent) content)
      rw [ht', Outcome, hsingle, Site.fault?, if_neg hname, hcontent, (addAt_ok ht').1,
        List.map_append]
      exact ⟨rfl, rfl⟩

/-- The parts of a site find its view ready for them. -/
theorem takesChild_of_content {content : ViewContent} (hname : t.checkName s.name = .ok ())
    (hv : t.Vacant (s.place parent)) (hcontent : s.content = .ok content)
    (h : t.addAt (s.place parent) content = .ok t') (hq : q ∈ s.parts) :
    t'.TakesChild t.size := by
  obtain ⟨name, stem, around, spec⟩ := s
  cases spec with
  | unit _ _ | malformed _ _ => cases hq
  | layered _ _ | concatenated _ _ | repeated _ _ _ | faceted _ _ =>
    obtain rfl := Except.ok.inj hcontent
    exact takesChild_of_addAt hname hv.parent h

/-- Beneath a view the names of children start with the name of their parent. -/
theorem TakesChild.stem_eq (ht : t.TakesChild v) (hq : q.stem = q.name ++ "_") :
    q.stem = if t.size = root then "" else q.name ++ "_" := by
  obtain ⟨n, _, hn, _⟩ := ht.composite
  have hne : t.size ≠ root := Nat.ne_of_gt (Nat.zero_lt_of_lt (lt_size_of_get? hn))
  rw [if_neg hne, hq]

theorem expandParts_outcome {qs : List Site} (hstem : ∀ q ∈ qs, q.stem = q.name ++ "_")
    (hqs : ∀ q ∈ qs, ∀ (t : ViewTree) (parent : Option ViewId),
      q.stem = (if t.size = root then "" else q.name ++ "_") → t.Vacant (q.place parent) →
        t.Outcome q.all (t.expand (q.place parent) q.spec))
    (ht : ∀ q ∈ qs, t.TakesChild v) :
    t.Outcome (qs.flatMap Site.all) (t.expandParts v qs) := by
  induction qs generalizing t with
  | nil => exact ⟨rfl, (List.append_nil _).symm⟩
  | cons q qs ih =>
    have htakes := ht q List.mem_cons_self
    have hvacant : t.Vacant (q.place (some v)) := htakes.vacant rfl
    have hfirst := hqs q List.mem_cons_self t (some v)
      (htakes.stem_eq (hstem q List.mem_cons_self)) hvacant
    rw [List.flatMap_cons, expandParts, List.foldlM_cons]
    refine hfirst.append fun t₁ h₁ => ?_
    have htakes₁ := (expand_planted q.spec t t₁ _ hvacant.parent h₁).takesChild rfl htakes
    exact ih (fun r hr => hstem r (List.mem_cons_of_mem q hr))
      (fun r hr => hqs r (List.mem_cons_of_mem q hr)) fun _ _ => htakes₁

/-- What comes of expanding a specification, read off its sites. -/
theorem expand_outcome (s : Site) (t : ViewTree) (parent : Option ViewId)
    (hstem : s.stem = if t.size = root then "" else s.name ++ "_")
    (hv : t.Vacant (s.place parent)) : t.Outcome s.all (t.expand (s.place parent) s.spec) := by
  induction s using Site.induction_parts generalizing t parent with
  | parts s ih =>
    have hsplit : t.expand (s.place parent) s.spec = (do
        t.checkName s.name
        let content ← s.content
        t.addAt (s.place parent) content) >>= fun t' => t'.expandParts t.size s.parts := by
      rw [expand_eq hstem]
      simp only [bind_assoc]
    rw [hsplit, Site.all_eq, ← List.singleton_append]
    refine (addAt_outcome hv).append fun t₁ h₁ => ?_
    obtain ⟨_, hname, h₁⟩ := Except.bind_eq_ok.mp h₁
    obtain ⟨content, hcontent, h₁⟩ := Except.bind_eq_ok.mp h₁
    exact expandParts_outcome (fun q hq => Site.stem_of_mem_parts hq) ih
      fun q hq => takesChild_of_content hname hv hcontent h₁ hq

theorem empty_vacant (name : String) (r : Option Repeater) : empty.Vacant ⟨name, none, r⟩ := by
  refine ⟨fun _ => rfl, fun q hq => ?_⟩
  cases hq

/-- Making the tree of a specification fails with the first fault of its sites. -/
theorem ofSpec_eq_error_iff {spec : ViewSpec} {e : CompileError} :
    ofSpec spec = .error e ↔ Site.firstFault [] spec.sites = some e := by
  have houtcome : empty.Outcome spec.sites (ofSpec spec) :=
    expand_outcome spec.site empty none rfl (empty_vacant _ _)
  cases h : ofSpec spec with
  | error e' =>
    rw [h] at houtcome
    have hfault : Site.firstFault [] spec.sites = some e' := houtcome
    rw [hfault, Except.error.injEq, Option.some.injEq]
  | ok t =>
    rw [h] at houtcome
    have hnone : Site.firstFault [] spec.sites = none := houtcome.1
    rw [hnone]
    constructor
    · intro he
      cases he
    · intro he
      cases he

end ViewTree

end BrushLink
