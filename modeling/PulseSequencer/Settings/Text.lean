import PulseSequencer.Json.Basic
import PulseSequencer.LogEvent
import PulseSequencer.Settings.Basic

/-!
# Settings as JSON

The reader and the printer of settings are derived from their fields `channel_groups`,
`counter_count` and `address_bits`, and these definitions stand for the derived ones.

Reading follows the rules that are documented for derived readers. Settings are an object with these
fields, or an array of their values in this order. Absent fields have their defaults, in an array
only the last ones. Unknown fields are skipped, and a known field may stand only once. No field
takes `null`. Numbers are spelled with digits only and fit the type of the field, channels are given
by their names, and a group that is repeated keeps its first place and has its last channels.

Printing gives an object of all fields in order, in the compact form.
-/

namespace PulseSequencer.Settings

/-! ## Reading -/

/-- The settings of a text so far. -/
structure Draft where
  groups : Option GroupTable
  counterCount : Option UInt8
  addressBits : Option UInt32

def Draft.empty : Draft := ⟨none, none, none⟩

def Draft.settings (draft : Draft) : Settings :=
  { groups := draft.groups.getD default.groups
    counterCount := draft.counterCount.getD default.counterCount
    addressBits := draft.addressBits.getD default.addressBits }

def string? : Json → Option String
  | .string points => (Json.text? points).map String.ofList
  | _ => none

/-- A number that is spelled with digits only and lies below `bound`. -/
def natural? (bound : Nat) : Json → Option Nat
  | .number literal =>
    let value := literal.foldl (fun n c => 10 * n + (c.toNat - '0'.toNat)) 0
    if literal.all Char.isDigit && value < bound then some value else none
  | _ => none

def counterCount? (value : Json) : Option UInt8 :=
  (natural? UInt8.size value).map Nat.toUInt8

def addressBits? (value : Json) : Option UInt32 :=
  (natural? UInt32.size value).map Nat.toUInt32

def channels? : Json → Option (List Channel)
  | .array items => items.mapM fun item => do Channel.ofName? (← string? item)
  | _ => none

/-- Channel groups by name. A repeated name replaces the channels and keeps its place. -/
def groups? : Json → Option GroupTable
  | .object members =>
    members.foldlM
      (fun table (name, channels) => do
        return table.insert (← string? (.string name)) (← channels? channels))
      .empty
  | _ => none

def setOnce {α : Type} (old : Option α) (new : Option α) : Option (Option α) :=
  if old.isSome then none else new.map some

/-- Takes one field of the object into the draft. -/
def Draft.field? (draft : Draft) (name : String) (value : Json) : Option Draft :=
  if name = "channel_groups" then do
    return { draft with groups := ← setOnce draft.groups (groups? value) }
  else if name = "counter_count" then do
    return { draft with counterCount := ← setOnce draft.counterCount (counterCount? value) }
  else if name = "address_bits" then do
    return { draft with addressBits := ← setOnce draft.addressBits (addressBits? value) }
  else some draft

def draft? : Json → Option Draft
  | .object members =>
    members.foldlM (fun draft (name, value) => do draft.field? (← string? (.string name)) value)
      .empty
  | .array [] => some .empty
  | .array [groups] => return ⟨← groups? groups, none, none⟩
  | .array [groups, counters] => return ⟨← groups? groups, ← counterCount? counters, none⟩
  | .array [groups, counters, bits] =>
    return ⟨← groups? groups, ← counterCount? counters, ← addressBits? bits⟩
  | _ => none

inductive TextError where
  /-- The text is no JSON, or not of settings. -/
  | malformed
  | invalid (error : SettingsError)

/-- Reads settings and sanitizes them. Every change is reported. -/
def ofText (text : String) : Except TextError (Settings × List LogEvent) :=
  match Json.parse? text >>= draft? with
  | none => .error .malformed
  | some draft =>
    match draft.settings.sanitize with
    | (_, .error error) => .error (.invalid error)
    | (settings, .ok changes) => .ok (settings, changes.map .groupChanged)

/-! ## Writing -/

def groupText (entry : String × List Channel) : List Char :=
  Json.quote entry.1 ++ [':', '[']
    ++ Json.commaSeparated (entry.2.map fun channel => Json.quote channel.name) ++ [']']

/-- The settings as JSON without blanks. -/
def toText (settings : Settings) : String :=
  String.ofList <|
    ['\x7b'] ++ Json.quote "channel_groups" ++ [':', '\x7b']
      ++ Json.commaSeparated (settings.groups.entries.map groupText) ++ ['\x7d', ',']
      ++ Json.quote "counter_count" ++ [':'] ++ Nat.toDigits 10 settings.counterCount.toNat ++ [',']
      ++ Json.quote "address_bits" ++ [':'] ++ Nat.toDigits 10 settings.addressBits.toNat
      ++ ['\x7d']

end PulseSequencer.Settings
