import Mathlib.Data.List.Nodup
import PulseSequencer.Proofs.Isolation

/-!
# Sanitizing settings

Sanitizing goes through the groups in order and removes the duplicate channels of each of them,
until it comes to a group that it has to refuse. By then the groups before have changed, but not
what a compilation sees of them.

Results:
1. `eraseDups_eq_firstOccurrences`: of every channel the first occurrence is kept.
2. `GroupChange.listing_injective`: two lists of channels that look alike are the same, so no change
   goes unnoticed.
3. `compile_eq_of_sameSets`: a compilation depends on the limits and on the names and channel sets
   of the groups in order.
4. `Settings.sanitize_preserves`: none of this changes, whether or not the settings are refused, and
   settings that are not refused come out as they should.
-/

namespace PulseSequencer

/-! ## First occurrences -/

/-- The channels of a list at the places where they occur for the first time. -/
def firstOccurrences (channels : List Channel) : List Channel :=
  (channels.zipIdx.filter fun entry => entry.1 ∉ channels.take entry.2).map Prod.fst

section

variable (channels : List Channel) (last : Channel)

theorem firstOccurrences_concat : firstOccurrences (channels ++ [last]) =
    firstOccurrences channels ++ if last ∈ channels then [] else [last] := by
  have early : (channels.zipIdx.filter fun entry => entry.1 ∉ (channels ++ [last]).take entry.2)
      = channels.zipIdx.filter fun entry => entry.1 ∉ channels.take entry.2 := by
    refine List.filter_congr fun entry present => ?_
    have inside := (List.mem_zipIdx present).2.1
    rw [List.take_append_of_le_length (by omega)]
  rw [firstOccurrences, List.zipIdx_append, List.filter_append, early, List.map_append]
  refine congrArg (firstOccurrences channels ++ ·) ?_
  by_cases present : last ∈ channels <;> simp [present]

theorem eraseDups_concat : (channels ++ [last]).eraseDups =
    channels.eraseDups ++ if last ∈ channels then [] else [last] := by
  rw [List.eraseDups_append]
  by_cases present : last ∈ channels <;> simp [List.removeAll, List.eraseDups_cons, present]

theorem eraseDups_eq_firstOccurrences : channels.eraseDups = firstOccurrences channels := by
  induction channels using List.reverseRecOn with
  | nil => rfl
  | append_singleton channels last ih => rw [eraseDups_concat, firstOccurrences_concat, ih]

theorem nodup_eraseDups : channels.eraseDups.Nodup := by
  induction channels using List.reverseRecOn with
  | nil => exact List.nodup_nil
  | append_singleton channels last ih =>
    rw [eraseDups_concat]
    split
    · rwa [List.append_nil]
    · next fresh =>
      refine ih.append (List.nodup_singleton last) ?_
      rwa [List.disjoint_singleton, List.mem_eraseDups]

theorem eraseDups_eq_self_iff : channels.eraseDups = channels ↔ channels.Nodup := by
  refine ⟨fun same => same ▸ nodup_eraseDups channels, fun distinct => ?_⟩
  induction channels using List.reverseRecOn with
  | nil => rfl
  | append_singleton channels last ih =>
    obtain ⟨earlier, _, apart⟩ := List.nodup_append.mp distinct
    have fresh : last ∉ channels := fun present => apart last present last (by simp) rfl
    rw [eraseDups_concat, ih earlier, if_neg fresh]

end

/-! ## Listings -/

namespace GroupChange

theorem comma_notMem_name (channel : Channel) : ',' ∉ channel.name.toList :=
  (show ∀ channel ∈ Channel.all, ',' ∉ channel.name.toList by decide +kernel) channel
    channel.mem_all

theorem name_ne_nil (channel : Channel) : channel.name.toList ≠ [] :=
  (show ∀ channel ∈ Channel.all, channel.name.toList ≠ [] by decide +kernel) channel
    channel.mem_all

/-- What follows the first name of a listing. -/
def furtherNames (channels : List Channel) : List Char :=
  channels.flatMap fun channel => ',' :: ' ' :: channel.name.toList

theorem intercalate_names (channel : Channel) (rest : List Channel) :
    [',', ' '].intercalate ((channel :: rest).map fun channel => channel.name.toList)
      = channel.name.toList ++ furtherNames rest := by
  induction rest generalizing channel with
  | nil => simp [furtherNames]
  | cons next rest ih =>
    have later := ih next
    rw [List.map_cons] at later
    rw [List.map_cons, List.map_cons, List.intercalate_cons_cons, later]
    simp [furtherNames]

/-- The first name of a listing ends at the first comma. -/
theorem takeWhile_name (channel : Channel) (rest : List Channel) :
    (channel.name.toList ++ furtherNames rest).takeWhile (· ≠ ',') = channel.name.toList := by
  have noComma : ∀ c ∈ channel.name.toList, decide (c ≠ ',') = true := by
    intro c present
    refine decide_eq_true fun comma => comma_notMem_name channel ?_
    rwa [← comma]
  rw [List.takeWhile_append_of_pos noComma]
  cases rest with
  | nil => simp [furtherNames]
  | cons next rest => simp [furtherNames]

theorem names_injective {c d : Channel} {rest rest' : List Channel}
    (same : c.name.toList ++ furtherNames rest = d.name.toList ++ furtherNames rest') :
    c = d ∧ furtherNames rest = furtherNames rest' := by
  have names : c.name.toList = d.name.toList := by
    rw [← takeWhile_name c rest, same, takeWhile_name]
  refine ⟨Channel.name_injective (String.toList_injective names), ?_⟩
  rw [names] at same
  exact List.append_cancel_left same

theorem furtherNames_injective {channels other : List Channel}
    (same : furtherNames channels = furtherNames other) : channels = other := by
  induction channels generalizing other with
  | nil =>
    cases other with
    | nil => rfl
    | cons d rest' => simp [furtherNames] at same
  | cons c rest ih =>
    cases other with
    | nil => simp [furtherNames] at same
    | cons d rest' =>
      have names : c.name.toList ++ furtherNames rest = d.name.toList ++ furtherNames rest' := by
        simpa [furtherNames] using same
      obtain ⟨rfl, later⟩ := names_injective names
      rw [ih later]

theorem listing_injective {channels other : List Channel}
    (same : listing channels = listing other) : channels = other := by
  have texts := congrArg String.toList same
  simp only [listing, String.toList_append, String.toList_intercalate, List.map_map] at texts
  have names := List.append_cancel_left (List.append_cancel_right texts)
  change [',', ' '].intercalate (channels.map fun channel => channel.name.toList)
    = [',', ' '].intercalate (other.map fun channel => channel.name.toList) at names
  cases channels with
  | nil =>
    cases other with
    | nil => rfl
    | cons d rest' =>
      rw [intercalate_names] at names
      exact absurd (List.append_eq_nil_iff.mp names.symm).1 (name_ne_nil d)
  | cons c rest =>
    cases other with
    | nil =>
      rw [intercalate_names] at names
      exact absurd (List.append_eq_nil_iff.mp names).1 (name_ne_nil c)
    | cons d rest' =>
      rw [intercalate_names, intercalate_names] at names
      obtain ⟨rfl, later⟩ := names_injective names
      rw [furtherNames_injective later]

end GroupChange

/-! ## What a compilation sees of the groups -/

/-- The names of groups with their channel sets, in order. -/
def channelSets (entries : List (String × List Channel)) : List (String × ChannelSet) :=
  entries.map fun entry => (entry.1, .ofList entry.2)

theorem compileGroup_of_sameLimits {settings other : Settings} (limits : settings.SameLimits other)
    (diagnostics : Bool) (element : Element) (group : String) (channels : ChannelSet) :
    compileGroup ⟨settings, diagnostics⟩ element group channels
      = compileGroup ⟨other, diagnostics⟩ element group channels := by
  simp only [compileGroup, limits.topAddress_eq, limits.1]

theorem compileGroups_of_sameSets {settings other : Settings} (limits : settings.SameLimits other)
    (diagnostics : Bool) (element : Element) {entries entries' : List (String × List Channel)}
    (sets : channelSets entries = channelSets entries') :
    compileGroups ⟨settings, diagnostics⟩ element entries
      = compileGroups ⟨other, diagnostics⟩ element entries' := by
  induction entries generalizing entries' with
  | nil =>
    cases entries' with
    | nil => rfl
    | cons entry' rest' => cases sets
  | cons entry rest ih =>
    cases entries' with
    | nil => cases sets
    | cons entry' rest' =>
      obtain ⟨name, channels⟩ := entry
      obtain ⟨name', channels'⟩ := entry'
      obtain ⟨first, later⟩ := List.cons.inj sets
      obtain ⟨rfl, sameSet⟩ := Prod.mk.inj first
      rw [compileGroups, compileGroups, sameSet, compileGroup_of_sameLimits limits, ih later]

theorem compile_eq_of_sameSets {settings other : Settings} (limits : settings.SameLimits other)
    (sets : channelSets settings.groups.entries = channelSets other.groups.entries)
    (diagnostics : Bool) (element : Element) :
    compile ⟨settings, diagnostics⟩ element = compile ⟨other, diagnostics⟩ element := by
  have checked : settings.checkLimits = other.checkLimits := by
    rw [Settings.checkLimits, Settings.checkLimits, limits.1, limits.2]
  rw [compile, compile, checked, compileGroups_of_sameSets limits diagnostics element sets]

/-! ## Groups with one RF channel -/

/-- There is exactly one RF channel among the channels, however often it is listed. -/
def DrivesOne (channels : List Channel) : Prop :=
  ∃! channel, channel ∈ channels ∧ channel.isRf = true

theorem drivesOne_iff_filter {channels : List Channel} (distinct : channels.Nodup) :
    DrivesOne channels ↔ ∃ channel, channels.filter Channel.isRf = [channel] := by
  constructor
  · rintro ⟨channel, present, unique⟩
    have distinctRf := distinct.filter Channel.isRf
    have isOnly : ∀ other ∈ channels.filter Channel.isRf, other = channel := fun other listed =>
      unique other (List.mem_filter.mp listed)
    have listed := List.mem_filter.mpr present
    generalize channels.filter Channel.isRf = found at *
    match found with
    | [] => cases listed
    | [only] => exact ⟨only, rfl⟩
    | first :: second :: rest =>
      have same : first = second := by rw [isOnly first (by simp), isOnly second (by simp)]
      simp [same] at distinctRf
  · rintro ⟨channel, only⟩
    have listed : ∀ other, other ∈ channels ∧ other.isRf = true ↔ other = channel := by
      intro other
      rw [← List.mem_filter, only, List.mem_singleton]
    exact ⟨channel, (listed channel).mpr rfl, fun other present => (listed other).mp present⟩

theorem rfOutput_ok_iff (group : String) (channels : List Channel) :
    (∃ index, rfOutput group (.ofList channels) = .ok index) ↔ DrivesOne channels := by
  have members : DrivesOne channels ↔ DrivesOne (ChannelSet.ofList channels).toList := by
    simp only [DrivesOne, ChannelSet.mem_toList, ChannelSet.mem_ofList]
  rw [members, drivesOne_iff_filter (ChannelSet.nodup_toList _)]
  constructor
  · rintro ⟨rf, ok⟩
    obtain ⟨index, only, _⟩ := rfOutput_eq_ok ok
    exact ⟨_, only⟩
  · rintro ⟨channel, only⟩
    exact ⟨channel.index, by rw [rfOutput, only]⟩

theorem drivesOne_eraseDups {channels : List Channel} :
    DrivesOne channels.eraseDups ↔ DrivesOne channels := by
  simp only [DrivesOne, List.mem_eraseDups]

/-! ## Sanitizing groups -/

namespace Settings

/-- The changes to report: one for every group that lists a channel twice. -/
def reports (entries : List (String × List Channel)) : List GroupChange :=
  (entries.filter fun entry => ¬ entry.2.Nodup).map fun entry =>
    ⟨entry.1, entry.2, firstOccurrences entry.2⟩

theorem listing_eraseDups_iff {channels : List Channel} :
    GroupChange.listing channels.eraseDups = GroupChange.listing channels ↔ channels.Nodup := by
  rw [← eraseDups_eq_self_iff]
  exact ⟨GroupChange.listing_injective, congrArg _⟩

/-- Groups keep their names and channel sets up to the one where sanitizing stops, and from there
on they are not touched. -/
theorem channelSets_sanitizeEntries (entries : List (String × List Channel)) :
    channelSets (sanitizeEntries entries).1 = channelSets entries := by
  induction entries with
  | nil => rfl
  | cons entry rest ih =>
    obtain ⟨name, channels⟩ := entry
    have first : (name, ChannelSet.ofList channels.eraseDups) = (name, .ofList channels) := by
      rw [ChannelSet.ofList_eraseDups]
    rw [sanitizeEntries]
    cases rfOutput name (.ofList channels.eraseDups) with
    | error error => exact congrArg (· :: channelSets rest) first
    | ok index => exact congrArg₂ List.cons first ih

theorem sanitizeEntries_of_drivesOne {entries : List (String × List Channel)}
    (driven : ∀ entry ∈ entries, DrivesOne entry.2) :
    sanitizeEntries entries
      = (entries.map fun entry => (entry.1, firstOccurrences entry.2), .ok (reports entries)) := by
  induction entries with
  | nil => rfl
  | cons entry rest ih =>
    obtain ⟨name, channels⟩ := entry
    have drivesOne : DrivesOne channels.eraseDups :=
      drivesOne_eraseDups.mpr (driven (name, channels) List.mem_cons_self)
    obtain ⟨index, ok⟩ := (rfOutput_ok_iff name channels.eraseDups).mpr drivesOne
    have later := ih fun entry present => driven entry (List.mem_cons_of_mem _ present)
    rw [sanitizeEntries]
    simp only [ok, later, listing_eraseDups_iff]
    rw [eraseDups_eq_firstOccurrences]
    by_cases distinct : channels.Nodup <;> simp [reports, distinct, Except.map]

theorem drivesOne_of_sanitizeEntries {entries : List (String × List Channel)}
    {changes : List GroupChange} (ok : (sanitizeEntries entries).2 = .ok changes) :
    ∀ entry ∈ entries, DrivesOne entry.2 := by
  induction entries generalizing changes with
  | nil => simp
  | cons entry rest ih =>
    obtain ⟨name, channels⟩ := entry
    rw [sanitizeEntries] at ok
    cases output : rfOutput name (.ofList channels.eraseDups) with
    | error error =>
      simp only [output] at ok
      cases ok
    | ok index =>
      simp only [output] at ok
      cases okRest : (sanitizeEntries rest).2 with
      | error error =>
        rw [okRest] at ok
        cases ok
      | ok others =>
        rw [List.forall_mem_cons]
        have driven := (rfOutput_ok_iff name channels.eraseDups).mp ⟨index, output⟩
        exact ⟨drivesOne_eraseDups.mp driven, ih okRest⟩

/-! ## Sanitizing settings -/

/-- The limits are limits that the sequencer can keep. -/
structure WithinHardware (settings : Settings) : Prop where
  counters : 1 ≤ settings.counterCount.toNat ∧ settings.counterCount.toNat ≤ hardwareCounters
  bits : 1 ≤ settings.addressBits.toNat ∧ settings.addressBits.toNat ≤ addressWidth

theorem checkLimits_ok_iff {settings : Settings} :
    settings.checkLimits = .ok () ↔ settings.WithinHardware := by
  constructor
  · intro ok
    rw [checkLimits] at ok
    split at ok
    · cases ok
    · split at ok
      · cases ok
      · exact ⟨by omega, by omega⟩
  · rintro ⟨counters, bits⟩
    rw [checkLimits, if_neg (by omega), if_neg (by omega)]

/-- Settings after they were sanitized without a failure, with the changes that were made. -/
structure Sanitized (settings result : Settings) (changes : List GroupChange) : Prop where
  groups : result.groups.entries
    = settings.groups.entries.map fun entry => (entry.1, firstOccurrences entry.2)
  oneRf : ∀ entry ∈ result.groups.entries, ∃ channel, entry.2.filter Channel.isRf = [channel]
  limits : result.WithinHardware
  changes : changes = reports settings.groups.entries
  again : result.sanitize = (result, .ok [])

section

variable {settings : Settings}

theorem entries_injective {table other : GroupTable} (same : table.entries = other.entries) :
    table = other := by
  cases table
  cases other
  cases same
  rfl

theorem sanitize_frame (settings : Settings) :
    settings.sanitize.1.SameLimits settings ∧
    channelSets settings.sanitize.1.groups.entries = channelSets settings.groups.entries := by
  rw [sanitize]
  cases settings.checkLimits with
  | error error => exact ⟨⟨rfl, rfl⟩, rfl⟩
  | ok => exact ⟨⟨rfl, rfl⟩, channelSets_sanitizeEntries _⟩

theorem sanitize_of_valid (limits : settings.WithinHardware)
    (driven : ∀ entry ∈ settings.groups.entries, DrivesOne entry.2) :
    settings.sanitize.1.groups.entries
      = settings.groups.entries.map (fun entry => (entry.1, firstOccurrences entry.2)) ∧
    settings.sanitize.2 = .ok (reports settings.groups.entries) := by
  have sanitized := sanitizeEntries_of_drivesOne driven
  simp only [sanitize, checkLimits_ok_iff.mpr limits, sanitized, and_self]

theorem valid_of_sanitize {changes : List GroupChange}
    (ok : settings.sanitize.2 = .ok changes) :
    settings.WithinHardware ∧ ∀ entry ∈ settings.groups.entries, DrivesOne entry.2 := by
  rw [sanitize] at ok
  cases checked : settings.checkLimits with
  | error error =>
    rw [checked] at ok
    cases ok
  | ok =>
    rw [checked] at ok
    exact ⟨checkLimits_ok_iff.mp checked, drivesOne_of_sanitizeEntries ok⟩

/-- Nothing is left to do where no group lists a channel twice. -/
theorem sanitize_of_nodup (limits : settings.WithinHardware)
    (driven : ∀ entry ∈ settings.groups.entries, DrivesOne entry.2)
    (distinct : ∀ entry ∈ settings.groups.entries, entry.2.Nodup) :
    settings.sanitize = (settings, .ok []) := by
  obtain ⟨entries, changes⟩ := sanitize_of_valid limits driven
  have noReports : reports settings.groups.entries = [] := by
    rw [reports, List.map_eq_nil_iff, List.filter_eq_nil_iff]
    intro entry present
    simpa using distinct entry present
  have sameEntries : settings.sanitize.1.groups.entries = settings.groups.entries := by
    rw [entries]
    refine (List.map_congr_left fun entry present => ?_).trans (List.map_id _)
    rw [← eraseDups_eq_firstOccurrences, (eraseDups_eq_self_iff _).mpr (distinct entry present)]
    rfl
  obtain ⟨counters, bits⟩ := (sanitize_frame settings).1
  have sameSettings : settings.sanitize.1 = settings := by
    generalize settings.sanitize.1 = result at *
    cases result
    cases settings
    cases counters
    cases bits
    cases entries_injective sameEntries
    rfl
  exact Prod.ext sameSettings (changes.trans (congrArg _ noReports))

theorem sanitize_of_noChanges (clean : settings.sanitize.2 = .ok []) :
    settings.sanitize = (settings, .ok []) := by
  obtain ⟨limits, driven⟩ := valid_of_sanitize clean
  refine sanitize_of_nodup limits driven fun entry present => ?_
  have reported := Except.ok.inj (clean.symm.trans (sanitize_of_valid limits driven).2)
  have unlisted := List.filter_eq_nil_iff.mp (List.map_eq_nil_iff.mp reported.symm) entry present
  simpa using unlisted

theorem sanitized_of_ok {changes : List GroupChange} (ok : settings.sanitize.2 = .ok changes) :
    Sanitized settings settings.sanitize.1 changes := by
  obtain ⟨limits, driven⟩ := valid_of_sanitize ok
  obtain ⟨entries, reported⟩ := sanitize_of_valid limits driven
  obtain ⟨⟨counters, bits⟩, _⟩ := sanitize_frame settings
  have limitsAfter : settings.sanitize.1.WithinHardware := by
    constructor
    · rw [counters]
      exact limits.counters
    · rw [bits]
      exact limits.bits
  -- Every group that comes out lists the channels of a group that went in, each of them once.
  have kept : ∀ entry ∈ settings.sanitize.1.groups.entries,
      entry.2.Nodup ∧ DrivesOne entry.2 := by
    intro entry present
    rw [entries, List.mem_map] at present
    obtain ⟨original, present, rfl⟩ := present
    rw [← eraseDups_eq_firstOccurrences]
    exact ⟨nodup_eraseDups _, drivesOne_eraseDups.mpr (driven original present)⟩
  refine ⟨entries, fun entry present => ?_, limitsAfter, ?_, ?_⟩
  · exact (drivesOne_iff_filter (kept entry present).1).mp (kept entry present).2
  · exact Except.ok.inj (ok.symm.trans reported)
  · exact sanitize_of_nodup limitsAfter (fun entry present => (kept entry present).2)
      fun entry present => (kept entry present).1

end

/-- Sanitizing changes nothing that a compilation can see, also when it stops at a group that it
refuses. It refuses limits beyond the hardware and groups without exactly one RF channel, and
otherwise leaves the first occurrence of each channel. -/
theorem sanitize_preserves (settings : Settings) :
    settings.sanitize.1.SameLimits settings ∧
    channelSets settings.sanitize.1.groups.entries = channelSets settings.groups.entries ∧
    (∀ diagnostics element, compile ⟨settings.sanitize.1, diagnostics⟩ element
      = compile ⟨settings, diagnostics⟩ element) ∧
    ((∃ changes, settings.sanitize.2 = .ok changes) ↔
      settings.WithinHardware ∧ ∀ entry ∈ settings.groups.entries, DrivesOne entry.2) ∧
    ∀ changes, settings.sanitize.2 = .ok changes →
      Sanitized settings settings.sanitize.1 changes := by
  obtain ⟨limits, sets⟩ := sanitize_frame settings
  refine ⟨limits, sets, compile_eq_of_sameSets limits sets, ?_, fun changes => sanitized_of_ok⟩
  constructor
  · rintro ⟨changes, ok⟩
    exact valid_of_sanitize ok
  · rintro ⟨within, driven⟩
    exact ⟨_, (sanitize_of_valid within driven).2⟩

/-- Two boards, the channels of the first one with duplicates. -/
def withDuplicates : Settings :=
  { Settings.default with
    groups := .ofList
      [("first", ["RF0", "D2", "RF0", "D2"].filterMap Channel.ofName?),
        ("second", ["D1", "RF1"].filterMap Channel.ofName?)] }

theorem sanitize_preserves_withDuplicates :
    withDuplicates.sanitize.2
      = .ok [⟨"first", [.rf 0, .digital 2, .rf 0, .digital 2], [.rf 0, .digital 2]⟩] ∧
    Sanitized withDuplicates withDuplicates.sanitize.1
      [⟨"first", [.rf 0, .digital 2, .rf 0, .digital 2], [.rf 0, .digital 2]⟩] := by
  have ok : withDuplicates.sanitize.2
      = .ok [⟨"first", [.rf 0, .digital 2, .rf 0, .digital 2], [.rf 0, .digital 2]⟩] := by rfl
  exact ⟨ok, (sanitize_preserves withDuplicates).2.2.2.2 _ ok⟩

end Settings

end PulseSequencer
