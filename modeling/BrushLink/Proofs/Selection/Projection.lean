import BrushLink.Proofs.Scale.Shown

/-! # Which fields are captured

What a selection captures is settled by a list of mentions (`UnitView.mentions`): its explicit
fields, then the fields on its explicit channels, or all fields of the encoding if it has
neither.  The mentions arrive one after the other in one table, and all of them in the same way
(`Table.mention`): a field that is new goes to the end, a known one keeps its place, and a
channel takes the place of an earlier one while the lack of a channel takes nobody's.

So the fields are listed as they are first mentioned, each with the last of its channels
(`UnitView.project_eq`).  Since a view shows one field on a channel, no channel is listed twice.
Channels without a field are no mentions, and each of them is warned of
(`Declaration.parse_projections`).
-/
namespace BrushLink

/-! ## Mentions -/

namespace Projection

/-- The last channel that is mentioned with a field. -/
def lastChannel? (ps : List Projection) (f : Field) : Option Channel :=
  ((ps.filter fun p => p.field = f).filterMap channel).getLast?

/-- Each mentioned field once, where it is first mentioned, with its last channel. -/
def condense (ps : List Projection) : List Projection :=
  (ps.map field).eraseDups.map fun f => ⟨lastChannel? ps f, f⟩

theorem lastChannel?_append_singleton (ps : List Projection) (p : Projection) (f : Field) :
    lastChannel? (ps ++ [p]) f =
      if p.field = f then p.channel.or (lastChannel? ps f) else lastChannel? ps f := by
  by_cases hf : p.field = f
  · cases hc : p.channel <;> simp [lastChannel?, List.filter_append, hf, hc]
  · simp [lastChannel?, List.filter_append, hf]

end Projection

/-- A field is mentioned, with or without a channel. -/
def Table.mention (t : Table Field (Option Channel)) (p : Projection) :
    Table Field (Option Channel) :=
  match p.channel with
  | some c => t.insert p.field (some c)
  | none => t.insertNew p.field none

namespace Table
variable (t : Table Field (Option Channel)) (p : Projection)

theorem keys_mention :
    (t.mention p).keys = if p.field ∈ t.keys then t.keys else t.keys ++ [p.field] := by
  rw [mention]
  cases p.channel with
  | some c => exact keys_insert ..
  | none =>
    rw [insertNew]
    by_cases h : p.field ∈ t.keys <;> simp [h]

theorem join_get?_mention (f : Field) :
    ((t.mention p).get? f).join =
      if p.field = f then p.channel.or (t.get? f).join else (t.get? f).join := by
  rw [mention]
  cases p.channel with
  | some c =>
    rw [get?_insert]
    by_cases hf : p.field = f
    · simp [hf]
    · simp [hf, Ne.symm hf]
  | none =>
    -- a known field stays as it is, and a new one has no channel before or after
    rw [insertNew, Option.none_or, ite_self]
    by_cases hmem : p.field ∈ t.keys
    · rw [if_pos (contains_iff.mpr hmem)]
    · rw [if_neg (mt contains_iff.mp hmem), get?_insert]
      by_cases hf : f = p.field
      · rw [if_pos hf, hf, get?_eq_none_iff.mpr hmem]
        rfl
      · rw [if_neg hf]

/-! ## All mentions -/

theorem keys_foldl_mention (ps : List Projection) :
    (ps.foldl mention ∅).keys = (ps.map Projection.field).eraseDups := by
  induction ps using List.reverseRecOn with
  | nil => rfl
  | append_singleton ps p ih =>
    rw [List.foldl_append, List.foldl_cons, List.foldl_nil, keys_mention, ih, List.map_append,
      List.eraseDups_append]
    generalize ps.map Projection.field = fs
    by_cases hmem : p.field ∈ fs
    · simp [hmem, List.removeAll]
    · simp [hmem, List.removeAll, List.eraseDups_cons]

theorem join_get?_foldl_mention (ps : List Projection) (f : Field) :
    ((ps.foldl mention ∅).get? f).join = Projection.lastChannel? ps f := by
  induction ps using List.reverseRecOn with
  | nil => rfl
  | append_singleton ps p ih =>
    rw [List.foldl_append, List.foldl_cons, List.foldl_nil, join_get?_mention, ih,
      Projection.lastChannel?_append_singleton]

end Table

namespace UnitView
variable (u : UnitView) (s : Settings)

/-- What settings mention on a view: fields without a channel, then the fields of channels, or
the whole encoding where neither are given. -/
def mentions : List Projection :=
  if s.projects then
    (s.fields.getD []).map (fun f => ⟨none, f⟩) ++
      (s.encodings.getD []).filterMap fun c => (u.field? c).map fun f => ⟨some c, f⟩
  else u.fields.map fun e => ⟨some e.1, e.2⟩

/-- The three rounds of capturing are one. -/
theorem captured_eq : u.captured s = (u.mentions s).foldl Table.mention ∅ := by
  -- the first round is empty if anything is given, the other two if nothing is
  rw [captured, mentions]
  by_cases h : s.projects
  · rw [if_pos h, if_pos h, List.foldl_append, List.foldl_map, List.foldl_filterMap]
    refine congrArg (fun step => List.foldl step _ _) ?_
    funext t c
    cases u.field? c <;> rfl
  · obtain ⟨hencodings, hfields⟩ : s.encodings = none ∧ s.fields = none := by
      simpa [Settings.projects] using h
    rw [if_neg h, if_neg h, hencodings, hfields, List.foldl_map]
    rfl

theorem project_eq : u.project s = Projection.condense (u.mentions s) := by
  rw [project, captured_eq, Table.entries_eq_map_keys, Table.keys_foldl_mention, List.map_map,
    Projection.condense]
  refine List.map_congr_left fun f _ => ?_
  exact congrArg (Projection.mk · f) (Table.join_get?_foldl_mention _ f)

/-- Two fields with one channel would both be what the view shows there. -/
theorem project_channels_nodup : ((u.project s).filterMap Projection.channel).Nodup := by
  rw [List.Nodup, List.pairwise_filterMap]
  refine (List.pairwise_map.mp (u.project_fields_nodup s)).imp_of_mem ?_
  rintro p q hp hq hne c hpc _ hqc rfl
  have hfield := (field?_of_mem_project hp hpc).symm.trans (field?_of_mem_project hq hqc)
  exact hne (Option.some.inj hfield)

end UnitView

/-! ## Channels without a field -/

namespace Declaration
variable {tree : ViewTree} {scales : ScaleTable}

/-- The warnings of captured fields begin with one for each channel without a field. -/
theorem filter_captureWarnings (d : Declaration) :
    d.captureWarnings.filter (fun w => w.code = .cannotProjectOnChannelWithoutField) =
      (d.content.missingChannels d.selection.settings).map fun c =>
        d.warning (.channelWithoutField c) := by
  rw [captureWarnings, List.filter_append, List.filter_eq_self.mpr, List.filter_eq_nil_iff.mpr,
    List.append_nil]
  · intro w hw
    obtain ⟨p, _, rfl⟩ := List.mem_map.mp hw
    simp [warning, Warning.code, WarningCause.code]
  · intro w hw
    obtain ⟨c, _, rfl⟩ := List.mem_map.mp hw
    simp [warning, Warning.code, WarningCause.code]

theorem filter_bindingWarnings (scope : List ViewId) (d : Declaration) :
    (d.bindingWarnings scales scope).filter
      (fun w => w.code = .cannotProjectOnChannelWithoutField) = [] := by
  rw [List.filter_eq_nil_iff, bindingWarnings]
  intro w hw
  split at hw
  · obtain rfl := List.mem_singleton.mp hw
    simp [warning, Warning.code, WarningCause.code]
  · obtain ⟨t, _, rfl⟩ := List.mem_map.mp hw
    simp [warning, Warning.code, WarningCause.code]

theorem filter_parse_warnings (d : Declaration) :
    (d.parse tree scales).warnings.filter
        (fun w => w.code = .cannotProjectOnChannelWithoutField) =
      (d.content.missingChannels d.selection.settings).map fun c =>
        d.warning (.channelWithoutField c) := by
  rw [← filter_captureWarnings, parse]
  split
  · rfl
  · split
    · rw [List.filter_append, filter_bindingWarnings, List.append_nil]
    · rfl
    · rfl

/-- **What a selection captures.**  A selection other than an interval, once its open settings
are filled, captures a field at least, and what it captures are its mentions, condensed: each
field once, in the order of first mention, with the last of its channels.  No channel serves two
fields.  Each channel that is given although the view has no field there is warned of, in
order. -/
theorem parse_projections {config : SelectionConfig} {d : Declaration} {parsed : ParsedSelection}
    (hparse : ((d.filled config).parse tree scales).result = .ok parsed)
    (htype : d.selection.type ≠ .interval) :
    parsed.component.projections ≠ [] ∧
      (parsed.component.projections.map Projection.field).Nodup ∧
      (parsed.component.projections.filterMap Projection.channel).Nodup ∧
      parsed.component.projections =
        Projection.condense (d.content.mentions (d.filled config).selection.settings) ∧
      ((d.filled config).parse tree scales).warnings.filter
          (fun w => w.code = .cannotProjectOnChannelWithoutField) =
        (((d.filled config).selection.settings.encodings.getD []).filter
          fun c => (d.content.field? c).isNone).map fun c =>
            ⟨d.view, d.name, .channelWithoutField c⟩ := by
  obtain ⟨hne, scope, outer, _, _, rfl⟩ := parse_ok hparse
  have hkept : (d.filled config).kept =
      d.content.project (d.filled config).selection.settings := if_neg htype
  refine ⟨hne, kept_fields_nodup _, ?_, ?_, filter_parse_warnings _⟩
  · rw [component, hkept]
    exact d.content.project_channels_nodup _
  · rw [component, hkept]
    exact d.content.project_eq _

end Declaration

/-- A selection of points that show a field `A` by position and colour, and `B` by height. -/
def Declaration.pick : Declaration :=
  let shown (f : String) : ChannelDef Field := ⟨some ⟨f⟩, .quantitative, false, none, .data⟩
  ⟨0, "root", ⟨.point, .ofList [(.x, shown "A"), (.y, shown "B"), (.color, shown "A")], ∅, none⟩,
    "pick", ⟨.multi, .none⟩⟩

/-- Fields and channels for selections that have neither, some of them given twice. -/
def SelectionConfig.twiceGiven : SelectionConfig :=
  { SelectionConfig.none with
    multi := { Settings.none with
      fields := some [⟨"B"⟩, ⟨"C"⟩, ⟨"B"⟩]
      encodings := some [.x, .size, .color, .y, .size] } }

/-- Where fields and channels are given, `B` comes first and gets a channel afterwards, and `A`
has the later of its channels.  Where neither is given, all of the encoding is captured. -/
theorem Declaration.parse_projections_pick :
    let tree : ViewTree := ⟨[⟨"root", none, .unit pick.content⟩]⟩
    (∃ parsed, ((pick.filled .twiceGiven).parse tree .empty).result = .ok parsed ∧
      parsed.component.projections =
        [⟨some .y, ⟨"B"⟩⟩, ⟨none, ⟨"C"⟩⟩, ⟨some .color, ⟨"A"⟩⟩] ∧
      ((pick.filled .twiceGiven).parse tree .empty).warnings.filter
          (fun w => w.code = .cannotProjectOnChannelWithoutField) =
        [⟨"root", "pick", .channelWithoutField .size⟩,
          ⟨"root", "pick", .channelWithoutField .size⟩]) ∧
    ∃ parsed, ((pick.filled .none).parse tree .empty).result = .ok parsed ∧
      parsed.component.projections = [⟨some .color, ⟨"A"⟩⟩, ⟨some .y, ⟨"B"⟩⟩] ∧
      ((pick.filled .none).parse tree .empty).warnings.filter
          (fun w => w.code = .cannotProjectOnChannelWithoutField) = [] := by
  intro tree
  obtain ⟨given, hgiven⟩ :
      ∃ parsed, ((pick.filled .twiceGiven).parse tree .empty).result = .ok parsed := ⟨_, rfl⟩
  obtain ⟨implied, himplied⟩ :
      ∃ parsed, ((pick.filled .none).parse tree .empty).result = .ok parsed := ⟨_, rfl⟩
  obtain ⟨_, _, _, hprojections, hwarnings⟩ := parse_projections hgiven (by decide)
  obtain ⟨_, _, _, hprojections', hwarnings'⟩ := parse_projections himplied (by decide)
  exact ⟨⟨given, hgiven, hprojections.trans (by decide), hwarnings.trans (by decide)⟩,
    implied, himplied, hprojections'.trans (by decide), hwarnings'.trans (by decide)⟩

end BrushLink
