import PulseSequencer.Proofs.Json
import PulseSequencer.Proofs.Settings.Sanitizing
import PulseSequencer.Settings.Text

/-!
# Settings survive their text

Settings that were written are read back as they were, group by group and channel by channel,
whatever characters the names of the groups hold.

Results:
1. `toText_eq`, `reads_members`: the text of settings is that of an object, and is read as one.
2. `draft?_members`: the object holds all that the settings hold, with the groups in order.
3. `ofText_toText_eq`: reading a text that was written comes down to sanitizing.
4. `ofText_toText`: so it changes nothing where sanitizing does not.
-/

namespace PulseSequencer.Settings

open Json

/-! ## The text as an object -/

/-- The member for a group. -/
def groupMember (entry : String × List Channel) : Member where
  name := entry.1
  text := '[' :: (commaSeparated (entry.2.map fun channel => quote channel.name) ++ [']'])
  value := .array (entry.2.map fun channel => .string (points channel.name.toList))

/-- The members for the fields of the settings. -/
def members (settings : Settings) : List Member :=
  let groups := settings.groups.entries.map groupMember
  [ { name := "channel_groups"
      text := '\x7b' :: (commaSeparated (groups.map Member.written) ++ ['\x7d'])
      value := .object (groups.map Member.read) },
    { name := "counter_count"
      text := Nat.toDigits 10 settings.counterCount.toNat
      value := .number (Nat.toDigits 10 settings.counterCount.toNat) },
    { name := "address_bits"
      text := Nat.toDigits 10 settings.addressBits.toNat
      value := .number (Nat.toDigits 10 settings.addressBits.toNat) } ]

theorem toText_eq (settings : Settings) : settings.toText
    = .ofList ('\x7b' :: (commaSeparated (settings.members.map Member.written) ++ ['\x7d'])) := by
  have groups : settings.groups.entries.map groupText
      = (settings.groups.entries.map groupMember).map Member.written := by
    rw [List.map_map]
    refine List.map_congr_left fun entry _ => ?_
    simp [groupText, groupMember, Member.written]
  rw [toText, groups]
  simp [members, Member.written, commaSeparated_cons, commaSeparated_singleton]

theorem reads_members (settings : Settings) :
    ∀ member ∈ settings.members, Reads member.text member.value := by
  simp only [members, List.forall_mem_cons]
  refine ⟨reads_object fun member listed => ?_, reads_natural _, reads_natural _, by simp⟩
  obtain ⟨entry, _, rfl⟩ := List.mem_map.mp listed
  exact reads_array fun channel _ => reads_string channel.name

/-! ## The object as settings -/

theorem string?_points (text : String) : string? (.string (points text.toList)) = some text := by
  rw [string?, text?_points, Option.map_some, String.ofList_toList]

theorem natural?_toDigits {n bound : Nat} (below : n < bound) :
    natural? bound (.number (Nat.toDigits 10 n)) = some n := by
  have digits : (Nat.toDigits 10 n).all Char.isDigit = true :=
    List.all_eq_true.mpr (isDigit_toDigits n)
  have value : (Nat.toDigits 10 n).foldl (fun n c => 10 * n + (c.toNat - '0'.toNat)) 0 = n :=
    Nat.ofDigitChars_toDigits (by omega) (by omega)
  simp only [natural?, digits, value, below, decide_true, Bool.and_self, if_true]

/-- Items that are read one by one. -/
theorem mapM_map_of_some {α β : Type} {read : β → Option α} {write : α → β}
    (inverse : ∀ item, read (write item) = some item) (items : List α) :
    (items.map write).mapM read = some items := by
  induction items with
  | nil => rfl
  | cons item rest ih =>
    rw [List.map_cons, List.mapM_cons, inverse, ih]
    rfl

theorem channels?_groupMember (entry : String × List Channel) :
    channels? (groupMember entry).value = some entry.2 := by
  refine mapM_map_of_some (fun channel => ?_) entry.2
  rw [string?_points]
  exact channel.ofName?_name

theorem insertEntry_of_fresh {name : String} {entries : List (String × List Channel)}
    (fresh : name ∉ entries.map Prod.fst) (channels : List Channel) :
    GroupTable.insertEntry name channels entries = entries ++ [(name, channels)] := by
  induction entries with
  | nil => rfl
  | cons entry rest ih =>
    obtain ⟨key, old⟩ := entry
    rw [List.map_cons, List.mem_cons, not_or] at fresh
    rw [GroupTable.insertEntry, if_neg (Ne.symm fresh.1), ih fresh.2]
    rfl

/-- Groups with new names take their places behind the groups of a table. -/
theorem exists_table_of_members (entries : List (String × List Channel)) (table : GroupTable)
    (distinct : ((table.entries ++ entries).map Prod.fst).Nodup) :
    ∃ result : GroupTable, result.entries = table.entries ++ entries ∧
      ((entries.map groupMember).map Member.read).foldlM
        (fun table (name, channels) => do
          return table.insert (← string? (.string name)) (← channels? channels))
        table = some result := by
  induction entries generalizing table with
  | nil => exact ⟨table, (List.append_nil _).symm, rfl⟩
  | cons entry rest ih =>
    have fresh : entry.1 ∉ table.entries.map Prod.fst := by
      rw [List.map_append, List.nodup_append] at distinct
      exact fun present => distinct.2.2 entry.1 present entry.1 (by simp) rfl
    have inserted : (table.insert entry.1 entry.2).entries = table.entries ++ [entry] :=
      insertEntry_of_fresh fresh entry.2
    obtain ⟨result, entries, ok⟩ := ih (table.insert entry.1 entry.2) (by
      rw [inserted, List.append_assoc]
      exact distinct)
    refine ⟨result, by rw [entries, inserted, List.append_assoc]; rfl, ?_⟩
    rw [List.map_cons, List.map_cons, List.foldlM_cons]
    dsimp only [Member.read]
    rw [string?_points, channels?_groupMember]
    exact ok

theorem groups?_entries (table : GroupTable) :
    groups? (.object ((table.entries.map groupMember).map Member.read)) = some table := by
  obtain ⟨result, entries, ok⟩ := exists_table_of_members table.entries .empty table.distinct
  rw [groups?, ok]
  exact congrArg some (entries_injective entries)

theorem draft?_members (settings : Settings) :
    draft? (.object (settings.members.map Member.read))
      = some ⟨settings.groups, settings.counterCount, settings.addressBits⟩ := by
  have counters : counterCount? (.number (Nat.toDigits 10 settings.counterCount.toNat))
      = some settings.counterCount := by
    rw [counterCount?, natural?_toDigits settings.counterCount.toNat_lt]
    simp
  have bits : addressBits? (.number (Nat.toDigits 10 settings.addressBits.toNat))
      = some settings.addressBits := by
    rw [addressBits?, natural?_toDigits settings.addressBits.toNat_lt]
    simp
  have groups := groups?_entries settings.groups
  rw [members, draft?]
  simp only [List.map_cons, List.map_nil, List.foldlM_cons, List.foldlM_nil, Member.read]
  rw [string?_points, string?_points, string?_points]
  generalize Json.object ((settings.groups.entries.map groupMember).map Member.read) = value
    at groups ⊢
  simp [Draft.field?, Draft.empty, setOnce, counters, bits, groups]

theorem ofText_toText_eq (settings : Settings) : ofText settings.toText =
    match settings.sanitize with
    | (_, .error error) => .error (.invalid error)
    | (result, .ok changes) => .ok (result, changes.map .groupChanged) := by
  have parsed := parse?_of_reads (reads_object settings.reads_members)
  rw [← toText_eq] at parsed
  have read : Json.parse? settings.toText >>= draft?
      = some ⟨settings.groups, settings.counterCount, settings.addressBits⟩ := by
    rw [parsed]
    exact settings.draft?_members
  rw [ofText, read]
  rfl

/-- Settings with nothing to sanitize are read from their text as they are, with nothing logged. -/
theorem ofText_toText (settings : Settings) (clean : settings.sanitize.2 = .ok []) :
    ofText settings.toText = .ok (settings, []) := by
  rw [ofText_toText_eq, sanitize_of_noChanges clean]
  rfl

/-- Boards with names that need every kind of escape. -/
def withEscapes : Settings :=
  { groups := .ofList
      [("\"quoted\" \\ / \x08\x0c\n\r\t\x01\x1f", ["D6", "RF3"].filterMap Channel.ofName?),
        ("", ["RF0"].filterMap Channel.ofName?), ("µ\x7f😀", ["RF0"].filterMap Channel.ofName?)]
    counterCount := 3
    addressBits := 12 }

theorem ofText_toText_withEscapes :
    withEscapes.sanitize.2 = .ok [] ∧ ofText withEscapes.toText = .ok (withEscapes, []) :=
  ⟨rfl, ofText_toText withEscapes rfl⟩

end PulseSequencer.Settings
