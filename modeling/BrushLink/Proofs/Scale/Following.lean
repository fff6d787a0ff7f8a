import BrushLink.Proofs.Scale.Listing
import BrushLink.Proofs.Scale.Shown
import BrushLink.Proofs.Selection.Lookup
import BrushLink.Proofs.Warnings

/-! # Scales that follow a selection

A scale may take its domain from a selection.  The name of the selection is looked up from the
view that owns the scale, and of the component that is found one field is read: the field that
the domain gives, else the one on the channel that it gives, else the first that is captured
(`SelectionDomain.Reads`).  A component always captures a field, so a domain that gives neither
field nor channel never comes away empty (`SelectionDomain.exists_reads_iff`); but it had to
pick if there are several, and is warned of.

A binding goes before all this.  So what drives a compiled scale is known from the table, the
tree and the components (`Compilation.DrivenAs`), and so are the warnings
(`compile_follows_domains`).
-/
namespace BrushLink

/-! ## The field that a domain reads -/

/-- The field of a component that a domain reads. -/
inductive SelectionDomain.Reads (tree : ViewTree) (k : Component) (d : SelectionDomain) :
    Field → Prop
  /-- The field that the domain gives. -/
  | given {f : Field} (hfield : d.field = some f) : Reads tree k d f
  /-- The field that is captured through the channel that the domain gives. -/
  | captured {c : Channel} {f : Field} (hfield : d.field = none) (hencoding : d.encoding = some c)
      (hp : ⟨some c, f⟩ ∈ k.projections) : Reads tree k d f
  /-- Where no field is captured through the channel, the one that the view shows there. -/
  | shown {c : Channel} {u : UnitView} {f : Field} (hfield : d.field = none)
      (hencoding : d.encoding = some c) (hnone : ∀ f', ⟨some c, f'⟩ ∉ k.projections)
      (hu : tree.unit? k.unit = some u) (hf : u.field? c = some f) : Reads tree k d f
  /-- The first captured field, if the domain gives neither. -/
  | first {p : Projection} {ps : List Projection} (hfield : d.field = none)
      (hencoding : d.encoding = none) (hp : k.projections = p :: ps) : Reads tree k d p.field

namespace Component
variable {k : Component} {c : Channel} {p : Projection}

theorem of_projectionOn? (h : k.projectionOn? c = some p) :
    p ∈ k.projections ∧ p.channel = some c := by
  have hc := List.find?_some h
  exact ⟨List.mem_of_find?_eq_some h, of_decide_eq_true hc⟩

theorem projectionOn?_eq_none_iff :
    k.projectionOn? c = none ↔ ∀ f, ⟨some c, f⟩ ∉ k.projections := by
  rw [projectionOn?, List.find?_eq_none]
  constructor
  · intro hmiss f hf
    exact hmiss _ hf (decide_eq_true rfl)
  · rintro hmiss ⟨channel, f⟩ hf hc
    obtain rfl : channel = some c := of_decide_eq_true hc
    exact hmiss f hf

theorem projectionOn?_of_mem (hapart : k.ChannelsApart) {f : Field}
    (h : ⟨some c, f⟩ ∈ k.projections) : k.projectionOn? c = some ⟨some c, f⟩ := by
  cases hfind : k.projectionOn? c with
  | none => exact absurd h (projectionOn?_eq_none_iff.mp hfind f)
  | some q =>
    obtain ⟨hq, hc⟩ := of_projectionOn? hfind
    rw [hapart q hq ⟨some c, f⟩ h c hc rfl]

end Component

namespace SelectionDomain
variable {tree : ViewTree} {k : Component} {d : SelectionDomain} {f : Field}

theorem reads_of_field? (h : d.field? tree k = some f) : d.Reads tree k f := by
  rw [field?] at h
  split at h
  · rename_i g hfield
    exact .given (hfield.trans h)
  · rename_i c hfield hencoding
    cases hp : k.projectionOn? c with
    | some p =>
      rw [hp] at h
      obtain rfl := Option.some.inj h
      obtain ⟨channel, f⟩ := p
      obtain ⟨hmem, rfl⟩ := Component.of_projectionOn? hp
      exact .captured hfield hencoding hmem
    | none =>
      rw [hp] at h
      obtain ⟨u, hu, hf⟩ := Option.bind_eq_some_iff.mp h
      exact .shown hfield hencoding (Component.projectionOn?_eq_none_iff.mp hp) hu hf
  · rename_i hfield hencoding
    obtain ⟨p, hp, rfl⟩ := Option.map_eq_some_iff.mp h
    obtain ⟨ps, hps⟩ := List.head?_eq_some_iff.mp hp
    exact .first hfield hencoding hps

theorem field?_of_reads (hapart : k.ChannelsApart) (h : d.Reads tree k f) :
    d.field? tree k = some f := by
  cases h with
  | given hfield => simp only [field?, hfield]
  | captured hfield hencoding hp =>
    have hfound := Component.projectionOn?_of_mem hapart hp
    simp only [field?, hfield, hencoding, hfound, Option.map_some, Option.some_or]
  | shown hfield hencoding hmiss hu hf =>
    have hnone := Component.projectionOn?_eq_none_iff.mpr hmiss
    simp only [field?, hfield, hencoding, hnone, hu, hf, Option.map_none, Option.none_or,
      Option.bind_some]
  | first hfield hencoding hp =>
    simp only [field?, hfield, hencoding, hp, List.head?_cons, Option.map_some]

theorem field?_eq_some_iff (hapart : k.ChannelsApart) :
    d.field? tree k = some f ↔ d.Reads tree k f :=
  ⟨reads_of_field?, field?_of_reads hapart⟩

/-- A domain reads a field of a component that captures any, unless it gives a channel only and
the field is neither captured through it nor shown on it. -/
theorem exists_reads_iff (hk : k.projections ≠ []) :
    (∃ f, d.Reads tree k f) ↔
      d.field.isSome ∨ (d.field = none ∧ d.encoding = none) ∨
      ∃ c, d.encoding = some c ∧ ((∃ f, ⟨some c, f⟩ ∈ k.projections) ∨
        ∃ u f, tree.unit? k.unit = some u ∧ u.field? c = some f) := by
  constructor
  · rintro ⟨f, hreads⟩
    cases hreads with
    | given hfield => exact Or.inl (Option.isSome_of_eq_some hfield)
    | captured _ hencoding hp => exact Or.inr (Or.inr ⟨_, hencoding, Or.inl ⟨f, hp⟩⟩)
    | shown _ hencoding _ hu hf => exact Or.inr (Or.inr ⟨_, hencoding, Or.inr ⟨_, f, hu, hf⟩⟩)
    | first hfield hencoding _ => exact Or.inr (Or.inl ⟨hfield, hencoding⟩)
  · cases hfield : d.field with
    | some f => exact fun _ => ⟨f, .given hfield⟩
    | none =>
      rintro (hsome | ⟨_, hencoding⟩ | ⟨c, hencoding, hchannel⟩)
      · cases hsome
      · obtain ⟨p, ps, hp⟩ := List.exists_cons_of_ne_nil hk
        exact ⟨p.field, .first hfield hencoding hp⟩
      · by_cases hcaptured : ∃ f, ⟨some c, f⟩ ∈ k.projections
        · obtain ⟨f, hp⟩ := hcaptured
          exact ⟨f, .captured hfield hencoding hp⟩
        · obtain ⟨u, f, hu, hf⟩ := hchannel.resolve_left hcaptured
          exact ⟨f, .shown hfield hencoding (fun f' hp => hcaptured ⟨f', hp⟩) hu hf⟩

/-! ## What a domain warns of -/

theorem head?_warnings {view : String} {w : Warning} :
    (d.warnings view k).head? = some w ↔ ∃ selection p q ps, d = ⟨selection, none, none⟩ ∧
      k.projections = p :: q :: ps ∧ w = ⟨view, selection, .severalFields p.field⟩ := by
  constructor
  · intro hw
    rw [warnings] at hw
    split at hw
    · rename_i p q ps hfield hencoding hprojections
      obtain ⟨selection, field, encoding⟩ := d
      cases hfield
      cases hencoding
      exact ⟨selection, p, q, ps, rfl, hprojections, (Option.some.inj hw).symm⟩
    · cases hw
  · rintro ⟨selection, p, q, ps, rfl, hprojections, rfl⟩
    rw [warnings, hprojections]
    rfl

/-- A domain warns once at most. -/
theorem toList_head?_warnings (view : String) (d : SelectionDomain) (k : Component) :
    (d.warnings view k).head?.toList = d.warnings view k := by
  rw [warnings]
  split
  · rfl
  · rfl

end SelectionDomain

/-! ## What drives a scale -/

namespace Compilation
variable {spec : ViewSpec} {c : Compilation} {a : Artifact} {s : Scale} {d : SelectionDomain}
  {k : Component}

/-- Some unit view declares the selection. -/
def Declares (c : Compilation) (selection : String) : Prop :=
  ∃ v u, c.tree.unit? v = some u ∧ u.selections.contains selection

/-- Nothing is bound to the scale, and the selection that its domain names means the component,
seen from the view that owns the scale. -/
structure Follows (c : Compilation) (s : Scale) (d : SelectionDomain) (k : Component) : Prop where
  unbound : s.binding = none
  domain : s.domain = .selection d
  found : c.registry.lookup c.tree s.owner d.selection = .ok (some k)

theorem Follows.eq (h : c.Follows s d k) {d' : SelectionDomain} {k' : Component}
    (h' : c.Follows s d' k') : d = d' ∧ k = k' := by
  obtain rfl := ScaleDomain.selection.inj (h.domain.symm.trans h'.domain)
  exact ⟨rfl, Option.some.inj (Except.ok.inj (h.found.symm.trans h'.found))⟩

/-- What drives a compiled scale, as the table, the tree and the components have it. -/
structure DrivenAs (c : Compilation) (s : Scale) (raw : Option String) : Prop where
  /-- A binding is kept. -/
  bound : ∀ e, s.binding = some e → raw = some e
  /-- Seen from the owner, a name means a component exactly if it is declared anywhere. -/
  visible : ∀ selection, (∃ k, c.registry.lookup c.tree s.owner selection = .ok (some k)) ↔
    c.Declares selection
  /-- Otherwise the scale is driven exactly if its domain follows a component, and gives a
  field, or leaves it open, or gives a channel through which the component captures a field or
  on which its view shows one. -/
  driven : s.binding = none → (raw.isSome ↔ ∃ d k, c.Declares d.selection ∧ c.Follows s d k ∧
    (d.field.isSome ∨ (d.field = none ∧ d.encoding = none) ∨
      ∃ ch, d.encoding = some ch ∧ ((∃ f, ⟨some ch, f⟩ ∈ k.projections) ∨
        ∃ u f, c.tree.unit? k.unit = some u ∧ u.field? ch = some f)))
  /-- What drives it is what the selection holds of the field that the domain reads. -/
  text : s.binding = none → ∀ e, raw = some e ↔
    ∃ d k f, c.Follows s d k ∧ d.Reads c.tree k f ∧ e = selectionEntry d.selection f

/-- The scale gives cause for the warning: its domain follows a component that captures several
fields, and does not say which. -/
def Ambiguous (c : Compilation) (s : Scale) (w : Warning) : Prop :=
  ∃ selection k p q ps, c.Follows s ⟨selection, none, none⟩ k ∧ k.projections = p :: q :: ps ∧
    c.tree.name s.owner = .ok w.view ∧ w.selection = selection ∧ w.cause = .severalFields p.field

theorem projections_ne_nil (h : (ofSpec spec).result = .ok c) (hk : k ∈ c.registry.components) :
    k.projections ≠ [] := by
  obtain ⟨d, _, hkept, scope, outer, _, _, rfl⟩ :=
    exists_declaration_of_component (ofSpec_steps h).2 hk
  exact hkept

theorem declares_iff (h : (ofSpec spec).result = .ok c) {n : String} :
    c.Declares n ↔ c.tree.declaring n ≠ [] := by
  have hw := (ViewTree.ofSpec_wellFormed (ofSpec_steps h).1).1
  constructor
  · rintro ⟨v, u, hu, hn⟩
    obtain ⟨view, hunits⟩ := (ViewTree.exists_mem_units hw).mpr hu
    exact List.ne_nil_of_mem (List.mem_filter.mpr ⟨hunits, hn⟩)
  · intro hne
    obtain ⟨⟨v, view, u⟩, hmem⟩ := List.exists_mem_of_ne_nil _ hne
    obtain ⟨hunits, hn⟩ := List.mem_filter.mp hmem
    exact ⟨v, u, (ViewTree.exists_mem_units hw).mp ⟨view, hunits⟩, hn⟩

/-- Seen from a view of the tree, a name either means a component or is declared nowhere. -/
theorem lookup_cases (h : (ofSpec spec).result = .ok c) {v : ViewId} {m : ViewNode}
    (hv : c.tree.get? v = some m) (n : String) :
    (∃ k, c.registry.lookup c.tree v n = .ok (some k) ∧ c.Declares n) ∨
      (c.registry.lookup c.tree v n = .ok none ∧ ¬ c.Declares n) := by
  obtain ⟨htree, hparse⟩ := ofSpec_steps h
  have hw := (ViewTree.ofSpec_wellFormed htree).1
  have hr := Registry.completed_of_parse hparse
  rw [declares_iff h]
  have hlookup := hr.lookup_eq hw hv n
  cases hfound : ((c.tree.climb c.tree.size v).findSome? (c.tree.firstIn? n)).bind
      fun u => c.registry.component? u n with
  | none =>
    rw [hfound] at hlookup
    exact Or.inr ⟨hlookup, not_not.mpr ((hr.lookup_eq_none_iff hw hv).mp hlookup)⟩
  | some k =>
    rw [hfound] at hlookup
    refine Or.inl ⟨k, hlookup, fun hnil => ?_⟩
    cases hlookup.symm.trans ((hr.lookup_eq_none_iff hw hv).mpr hnil)

/-- The owner of a listed scale is a view of the tree. -/
theorem exists_owner (h : (ofSpec spec).result = .ok c) (hs : s ∈ c.listedScales) :
    ∃ n, c.tree.get? s.owner = some n := by
  have hplaced := placed_of_parse (ofSpec_steps h).1 (ofSpec_steps h).2
  have hmem := (flatMap_preorder_perm h).mem_iff.mp hs
  obtain ⟨n, hn, _⟩ := scale_named h ((ScaleTable.mem_toList hplaced).mp hmem)
  exact ⟨n, hn⟩

/-- A scale is driven by what is bound to it, or else by the component that its domain follows,
or else by nothing. -/
theorem driver_cases (h : (ofSpec spec).result = .ok c) (hs : s ∈ c.listedScales) :
    (∃ e, s.binding = some e ∧ s.driver c.tree c.registry = pure (some e)) ∨
    (∃ d k view, c.Follows s d k ∧ c.tree.name s.owner = .ok view ∧
      s.driver c.tree c.registry =
        ⟨.ok ((d.field? c.tree k).map (selectionEntry d.selection)), d.warnings view k⟩) ∨
    (s.binding = none ∧ (∀ d k, ¬ c.Follows s d k) ∧
      s.driver c.tree c.registry = pure none) := by
  obtain ⟨n, hn⟩ := exists_owner h hs
  have hview := ViewTree.name_of_get? hn
  cases hbinding : s.binding with
  | some e =>
    refine Or.inl ⟨e, rfl, ?_⟩
    rw [Scale.driver, hbinding]
  | none =>
    by_cases hdomain : ∃ d, s.domain = .selection d
    · obtain ⟨d, hdomain⟩ := hdomain
      have hresolve : s.driver c.tree c.registry = d.resolve c.tree c.registry s.owner := by
        rw [Scale.driver, hbinding, hdomain]
      rcases lookup_cases h hn d.selection with ⟨k, hlookup, _⟩ | ⟨hlookup, _⟩
      · refine Or.inr (Or.inl ⟨d, k, n.name, ⟨hbinding, hdomain, hlookup⟩, hview, ?_⟩)
        rw [hresolve, SelectionDomain.resolve, hlookup, hview]
        exact congrArg (Diagnosed.mk _) (List.append_nil (d.warnings n.name k))
      · refine Or.inr (Or.inr ⟨rfl, fun d' k hk => ?_, ?_⟩)
        · obtain rfl := ScaleDomain.selection.inj (hdomain.symm.trans hk.domain)
          cases hlookup.symm.trans hk.found
        · rw [hresolve, SelectionDomain.resolve, hlookup]
          rfl
    · refine Or.inr (Or.inr ⟨rfl, fun d k hk => hdomain ⟨d, hk.domain⟩, ?_⟩)
      rw [Scale.driver, hbinding]
      cases hkind : s.domain with
      | data => rfl
      | literal values => rfl
      | selection d => exact absurd ⟨d, hkind⟩ hdomain

theorem driver_text_iff (h : (ofSpec spec).result = .ok c) (hs : s ∈ c.listedScales)
    {raw : Option String} (hraw : (s.driver c.tree c.registry).result = .ok raw)
    (hbinding : s.binding = none) (e : String) :
    raw = some e ↔
      ∃ d k f, c.Follows s d k ∧ d.Reads c.tree k f ∧ e = selectionEntry d.selection f := by
  rcases driver_cases h hs with ⟨e', he', _⟩ | ⟨d, k, view, hk, _, hdriver⟩ | ⟨_, hnone, hdriver⟩
  · cases hbinding.symm.trans he'
  · have hapart := channelsApart_of_component (ofSpec_steps h).1 (ofSpec_steps h).2
      (Registry.lookup_ok hk.found).1
    rw [hdriver] at hraw
    obtain rfl := Except.ok.inj hraw
    rw [Option.map_eq_some_iff]
    constructor
    · rintro ⟨f, hf, rfl⟩
      exact ⟨d, k, f, hk, (SelectionDomain.field?_eq_some_iff hapart).mp hf, rfl⟩
    · rintro ⟨d', k', f, hk', hreads, rfl⟩
      obtain ⟨rfl, rfl⟩ := hk.eq hk'
      exact ⟨f, (SelectionDomain.field?_eq_some_iff hapart).mpr hreads, rfl⟩
  · rw [hdriver] at hraw
    obtain rfl := Diagnosed.pure_result_ok.mp hraw
    refine iff_of_false (Option.some_ne_none _).symm ?_
    rintro ⟨d, k, _, hk, _⟩
    exact hnone d k hk

theorem drivenAs_of_driver (h : (ofSpec spec).result = .ok c) (hs : s ∈ c.listedScales)
    {raw : Option String} (hraw : (s.driver c.tree c.registry).result = .ok raw) :
    c.DrivenAs s raw := by
  have hreads : ∀ d k, c.Follows s d k → ((∃ f, d.Reads c.tree k f) ↔ _) := fun d k hk =>
    SelectionDomain.exists_reads_iff (projections_ne_nil h (Registry.lookup_ok hk.found).1)
  have hvisible : ∀ selection,
      (∃ k, c.registry.lookup c.tree s.owner selection = .ok (some k)) ↔ c.Declares selection := by
    intro selection
    obtain ⟨n, hn⟩ := exists_owner h hs
    rcases lookup_cases h hn selection with ⟨k, hlookup, hdeclares⟩ | ⟨hlookup, hdeclares⟩
    · exact iff_of_true ⟨k, hlookup⟩ hdeclares
    · refine iff_of_false ?_ hdeclares
      rintro ⟨k, hk⟩
      cases hlookup.symm.trans hk
  constructor
  case bound =>
    intro e he
    have hdriver : s.driver c.tree c.registry = pure (some e) := by
      rw [Scale.driver, he]
    rw [hdriver] at hraw
    exact (Diagnosed.pure_result_ok.mp hraw).symm
  case visible => exact hvisible
  case driven =>
    intro hbinding
    rw [Option.isSome_iff_exists]
    constructor
    · rintro ⟨e, he⟩
      obtain ⟨d, k, f, hk, hf, _⟩ := (driver_text_iff h hs hraw hbinding e).mp he
      exact ⟨d, k, (hvisible d.selection).mp ⟨k, hk.found⟩, hk, (hreads d k hk).mp ⟨f, hf⟩⟩
    · rintro ⟨d, k, _, hk, hgiven⟩
      obtain ⟨f, hf⟩ := (hreads d k hk).mpr hgiven
      exact ⟨_, (driver_text_iff h hs hraw hbinding _).mpr ⟨d, k, f, hk, hf, rfl⟩⟩
  case text => exact driver_text_iff h hs hraw

/-! ## What is warned of -/

theorem head?_driver_warnings (h : (ofSpec spec).result = .ok c) (hs : s ∈ c.listedScales)
    (w : Warning) :
    (s.driver c.tree c.registry).warnings.head? = some w ↔ c.Ambiguous s w := by
  rcases driver_cases h hs with
    ⟨e, he, hdriver⟩ | ⟨d, k, view, hk, hview, hdriver⟩ | ⟨_, hnone, hdriver⟩
  · rw [hdriver]
    refine iff_of_false (Option.some_ne_none _).symm ?_
    rintro ⟨_, _, _, _, _, hk, _⟩
    cases he.symm.trans hk.unbound
  · rw [hdriver, SelectionDomain.head?_warnings]
    constructor
    · rintro ⟨selection, p, q, ps, rfl, hps, rfl⟩
      exact ⟨selection, k, p, q, ps, hk, hps, hview, rfl, rfl⟩
    · rintro ⟨selection, k', p, q, ps, hk', hps, hview', hselection, hcause⟩
      obtain ⟨rfl, rfl⟩ := hk.eq hk'
      obtain ⟨view', _, _⟩ := w
      cases Except.ok.inj (hview.symm.trans hview')
      cases hselection
      cases hcause
      exact ⟨_, p, q, ps, rfl, hps, rfl⟩
  · rw [hdriver]
    refine iff_of_false (Option.some_ne_none _).symm ?_
    rintro ⟨_, _, _, _, _, hk, _⟩
    exact hnone _ _ hk

theorem toList_head?_driver_warnings (h : (ofSpec spec).result = .ok c) (hs : s ∈ c.listedScales) :
    (s.driver c.tree c.registry).warnings.head?.toList = (s.driver c.tree c.registry).warnings := by
  rcases driver_cases h hs with ⟨_, _, hdriver⟩ | ⟨d, k, view, _, _, hdriver⟩ | ⟨_, _, hdriver⟩
  · rw [hdriver]
    rfl
  · rw [hdriver]
    exact SelectionDomain.toList_head?_warnings view d k
  · rw [hdriver]
    rfl

/-- Reading the selections never warns of a domain, and the artifact warns of nothing else. -/
theorem filter_compile_warnings (h : (ofSpec spec).result = .ok c) (ha : c.artifact.result = .ok a) :
    (compile spec).warnings.filter (fun w => w.code = .selectionDomainMultipleFields) =
      c.listedScales.flatMap fun s => (s.driver c.tree c.registry).warnings := by
  rw [compile_warnings h, List.filter_append, artifact_warnings ha]
  have hselections : (ofSpec spec).warnings.filter
      (fun w => w.code = .selectionDomainMultipleFields) = [] := by
    refine List.filter_eq_nil_iff.mpr fun w hw hcode => ?_
    rw [ofSpec_warnings h] at hw
    obtain ⟨d, _, hd⟩ := List.mem_flatMap.mp hw
    exact (Declaration.of_mem_parse_warnings hd).2 (of_decide_eq_true hcode)
  rw [hselections, List.nil_append, List.filter_eq_self]
  intro w hw
  obtain ⟨s, _, hs⟩ := List.mem_flatMap.mp hw
  exact decide_eq_true (Scale.code_of_mem_driver_warnings hs)

/-- The artifact has the scales driven as their bindings and domains say, and among the warnings
is one for each domain that had to pick a field. -/
structure FollowsDomains (c : Compilation) (a : Artifact) (warnings : List Warning) : Prop where
  /-- The scales of the table, view by view, are compiled to those of the artifact. -/
  scales : List.Forall₂ (fun s cs => s.CompilesTo cs ∧ c.DrivenAs s cs.raw) c.listedScales a.scales
  /-- Each scale of the table is listed once. -/
  listed : c.listedScales.Perm c.scales.toList
  /-- A view lists its scales in canonical order of channels. -/
  ordered : ∀ v, (c.scales.ownedBy v).Pairwise fun s s' => s.channel.rank < s'.channel.rank
  /-- In the same order, the scales that give cause are warned of. -/
  warned : ∃ report : Scale → Option Warning,
    (∀ s ∈ c.listedScales, ∀ w, report s = some w ↔ c.Ambiguous s w) ∧
    warnings.filter (fun w => w.code = .selectionDomainMultipleFields) =
      c.listedScales.filterMap report

theorem forall₂_scales (h : (ofSpec spec).result = .ok c) (ha : c.artifact.result = .ok a) :
    List.Forall₂ (fun s cs => s.CompilesTo cs ∧ c.DrivenAs s cs.raw) c.listedScales a.scales := by
  have hcompiled : List.Forall₂ (fun s cs => (s.compile c.tree c.registry).result = .ok cs)
      c.listedScales a.scales :=
    List.rel_flatMap (artifact_ok ha).2 fun v cv hcv =>
      Diagnosed.forEach_result_ok.mp (compiledView_ok hcv).1
  refine ((List.forall₂_and_left _ _).mpr ⟨fun s hs => hs, hcompiled⟩).imp fun s cs hcs => ?_
  obtain ⟨hs, hcs⟩ := hcs
  refine ⟨compilesTo_of_compile hcs, ?_⟩
  obtain ⟨raw, hraw, hcs⟩ := Diagnosed.bind_result_ok.mp hcs
  obtain rfl := Diagnosed.pure_result_ok.mp hcs
  exact drivenAs_of_driver h hs hraw

theorem followsDomains (h : (ofSpec spec).result = .ok c) (ha : c.artifact.result = .ok a) :
    c.FollowsDomains a (compile spec).warnings := by
  have hplaced := placed_of_parse (ofSpec_steps h).1 (ofSpec_steps h).2
  constructor
  case scales => exact forall₂_scales h ha
  case listed => exact flatMap_preorder_perm h
  case ordered => exact fun v => c.scales.ownedBy_pairwise hplaced v
  case warned =>
    refine ⟨fun s => (s.driver c.tree c.registry).warnings.head?, ?_, ?_⟩
    · intro s hs w
      exact head?_driver_warnings h hs w
    · rw [filter_compile_warnings h ha, List.filterMap_eq_flatMap_toList]
      exact List.flatMap_congr fun s hs => (toList_head?_driver_warnings h hs).symm

end Compilation

/-- **What drives a scale.**  In the artifact of a specification that compiles, a scale is driven
by what is bound to it, and otherwise by the field that its domain reads of the selection that it
follows; and a domain that had to pick a field is warned of, each in its turn. -/
theorem compile_follows_domains {spec : ViewSpec} {a : Artifact}
    (h : (compile spec).result = .ok a) :
    ∃ c, (Compilation.ofSpec spec).result = .ok c ∧ c.artifact.result = .ok a ∧
      c.FollowsDomains a (compile spec).warnings := by
  obtain ⟨c, hc, ha⟩ := compile_ok h
  exact ⟨c, hc, ha, Compilation.followsDomains hc ha⟩

/-- A field as numbers, on a scale that follows a selection. -/
def ChannelSpec.following (f : String) (d : SelectionDomain) : ChannelSpec :=
  .single ⟨some (.named ⟨f⟩), .quantitative, false, none, .selection d⟩

/-- A view that shows what is brushed in another, in all the ways to say it: the field left open,
by a channel that is not captured, by a field on a shared scale; and once by a name that is not
declared. -/
def ViewSpec.detail : ViewSpec :=
  .concatenated default
    [points [(.x, .numeric "A"), (.y, .numeric "B"), (.color, .numeric "C")]
        [("brush", ⟨.interval, .none⟩)],
      points [(.x, .following "A" ⟨"brush", none, none⟩),
        (.y, .following "B" ⟨"brush", none, some .color⟩),
        (.color, .following "C" ⟨"brush", some ⟨"B"⟩, some .x⟩),
        (.size, .following "D" ⟨"lasso", none, none⟩)] []]

theorem compile_follows_domains_detail :
    ∃ a, (compile .detail).result = .ok a ∧
      a.scales.map CompiledScale.raw = [none, some "brush[\"B\"]", none, none,
        some "brush[\"A\"]", some "brush[\"C\"]"] ∧
      (compile .detail).warnings = [⟨"concat_1", "brush", .severalFields ⟨"A"⟩⟩] ∧
      ∃ c, (Compilation.ofSpec .detail).result = .ok c ∧ c.artifact.result = .ok a ∧
        c.FollowsDomains a (compile .detail).warnings :=
  ⟨_, rfl, by decide +kernel, by decide +kernel, @compile_follows_domains .detail _ rfl⟩

end BrushLink
