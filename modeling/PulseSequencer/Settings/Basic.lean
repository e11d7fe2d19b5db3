import PulseSequencer.Channel
import PulseSequencer.Instruction

/-!
# Compiler settings

Every channel group is compiled into a program of its own, for the board that drives the RF channel
of the group. The settings hold the groups, in the order in which they are compiled, and how much of
the sequencer's counters and memory the compiler may use.
-/

namespace PulseSequencer

/-! ## Channel groups -/

/-- Channel groups by name, in the order in which the names were first inserted. -/
structure GroupTable where
  entries : List (String × List Channel)
  distinct : (entries.map Prod.fst).Nodup

namespace GroupTable

def empty : GroupTable := ⟨[], by simp⟩

/-- Sets the channels of a group: in its place if the name is there, else at the end. -/
def insertEntry (name : String) (channels : List Channel) :
    List (String × List Channel) → List (String × List Channel)
  | [] => [(name, channels)]
  | (key, old) :: rest =>
    if key = name then (key, channels) :: rest else (key, old) :: insertEntry name channels rest

theorem mem_keys_insertEntry {name key : String} {channels : List Channel}
    {entries : List (String × List Channel)}
    (present : key ∈ (insertEntry name channels entries).map Prod.fst) :
    key = name ∨ key ∈ entries.map Prod.fst := by
  induction entries with
  | nil => exact .inl (by simpa [insertEntry] using present)
  | cons entry rest ih =>
    obtain ⟨first, old⟩ := entry
    by_cases same : first = name
    · rw [insertEntry, if_pos same] at present
      exact .inr present
    · rw [insertEntry, if_neg same, List.map_cons, List.mem_cons] at present
      rw [List.map_cons, List.mem_cons]
      rcases present with here | later
      · exact .inr (.inl here)
      · rcases ih later with equal | inRest
        · exact .inl equal
        · exact .inr (.inr inRest)

theorem nodup_keys_insertEntry {name : String} {channels : List Channel}
    {entries : List (String × List Channel)} (distinct : (entries.map Prod.fst).Nodup) :
    ((insertEntry name channels entries).map Prod.fst).Nodup := by
  induction entries with
  | nil => simp [insertEntry]
  | cons entry rest ih =>
    obtain ⟨first, old⟩ := entry
    by_cases same : first = name
    · rw [insertEntry, if_pos same]
      exact distinct
    · rw [insertEntry, if_neg same, List.map_cons, List.nodup_cons]
      rw [List.map_cons, List.nodup_cons] at distinct
      refine ⟨fun present => ?_, ih distinct.2⟩
      rcases mem_keys_insertEntry present with equal | inRest
      · exact same equal
      · exact distinct.1 inRest

def insert (table : GroupTable) (name : String) (channels : List Channel) : GroupTable :=
  ⟨insertEntry name channels table.entries, nodup_keys_insertEntry table.distinct⟩

def ofList (entries : List (String × List Channel)) : GroupTable :=
  entries.foldl (fun table (name, channels) => table.insert name channels) empty

/-- The channels of the named group. -/
def get? (table : GroupTable) (name : String) : Option ChannelSet :=
  (table.entries.lookup name).map .ofList

end GroupTable

/-! ## Settings -/

structure Settings where
  groups : GroupTable
  /-- The number of loop counters that the compiler may use. -/
  counterCount : UInt8
  /-- The width of the instruction addresses that the compiler may use. -/
  addressBits : UInt32

inductive SettingsError where
  | counterCount (given : UInt8)
  | addressBits (given : UInt32)
  | noRfChannel (group : String)
  | severalRfChannels (group : String)

def SettingsError.message (error : SettingsError) : String :=
  let reason := match error with
    | .counterCount given =>
      s!"counter_count must be between 1 and {hardwareCounters}, got {given.toNat}"
    | .addressBits given =>
      s!"address_bits must be between 1 and {addressWidth}, got {given.toNat}"
    | .noRfChannel group => s!"Channel group {group} contains no RF channel"
    | .severalRfChannels group => s!"Channel group {group} contains more than one RF channel"
  s!"Invalid compiler settings: {reason}"

/-- The output that the board of a channel group drives: the only RF channel of the group. -/
def rfOutput (group : String) (channels : ChannelSet) : Except SettingsError Nat :=
  match channels.toList.filter Channel.isRf with
  | [channel] => .ok channel.index
  | [] => .error (.noRfChannel group)
  | _ => .error (.severalRfChannels group)

/-- A group whose channels were changed, with its channels before and after. -/
structure GroupChange where
  group : String
  before : List Channel
  after : List Channel

namespace GroupChange

def setting (change : GroupChange) : String :=
  s!"channel_groups.{change.group}"

def reason : String := "Duplicate channels removed."

/-- A list of channels as it is shown in messages. -/
def listing (channels : List Channel) : String :=
  "[" ++ ", ".intercalate (channels.map Channel.name) ++ "]"

end GroupChange

namespace Settings

/-- Each RF channel with all digital channels, and all of the sequencer. -/
def default : Settings :=
  let group (rf : Fin 4) : String × List Channel :=
    let channel := Channel.rf rf
    (if rf = 0 then s!"{channel.name}D" else channel.name,
      channel :: (List.finRange 7).map .digital)
  { groups := .ofList ((List.finRange 4).map group)
    counterCount := 8
    addressBits := 14 }

instance : Inhabited Settings := ⟨default⟩

/-- Checks the limits against the hardware. -/
def checkLimits (settings : Settings) : Except SettingsError Unit :=
  if settings.counterCount.toNat = 0 ∨ hardwareCounters < settings.counterCount.toNat then
    .error (.counterCount settings.counterCount)
  else if settings.addressBits.toNat = 0 ∨ addressWidth < settings.addressBits.toNat then
    .error (.addressBits settings.addressBits)
  else .ok ()

/-- The highest instruction address that the compiler may use. -/
def topAddress (settings : Settings) : Except SettingsError Nat := do
  settings.checkLimits
  return 1 <<< settings.addressBits.toNat - 1

/-! ## Sanitizing -/

/-- Removes duplicate channels group by group until a group has no single RF channel. Returns the
groups as they are then, and the changes or the error. A change is what shows in the listing of a
group. -/
def sanitizeEntries : List (String × List Channel) →
    List (String × List Channel) × Except SettingsError (List GroupChange)
  | [] => ([], .ok [])
  | (name, channels) :: rest =>
    let kept := channels.eraseDups
    match rfOutput name (.ofList kept) with
    | .error error => ((name, kept) :: rest, .error error)
    | .ok _ =>
      let (others, outcome) := sanitizeEntries rest
      let changes :=
        if GroupChange.listing kept = GroupChange.listing channels then []
        else [⟨name, channels, kept⟩]
      ((name, kept) :: others, outcome.map (changes ++ ·))

theorem keys_sanitizeEntries (entries : List (String × List Channel)) :
    (sanitizeEntries entries).1.map Prod.fst = entries.map Prod.fst := by
  induction entries with
  | nil => rfl
  | cons entry rest ih =>
    obtain ⟨name, channels⟩ := entry
    rw [sanitizeEntries]
    cases rfOutput name (.ofList channels.eraseDups) with
    | error error => rfl
    | ok index => simpa using ih

/-- Removes duplicate channels and checks the settings against the hardware. Changes made before a
failure are kept. -/
def sanitize (settings : Settings) : Settings × Except SettingsError (List GroupChange) :=
  match settings.checkLimits with
  | .error error => (settings, .error error)
  | .ok () =>
    let sanitized := sanitizeEntries settings.groups.entries
    let groups : GroupTable :=
      ⟨sanitized.1, by
        rw [keys_sanitizeEntries]
        exact settings.groups.distinct⟩
    ({ settings with groups }, sanitized.2)

end Settings

end PulseSequencer
