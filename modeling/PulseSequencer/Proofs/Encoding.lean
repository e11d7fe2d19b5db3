import Mathlib.Algebra.GroupWithZero.Nat
import PulseSequencer.Proofs.Program.MemoryMap

/-!
# The encoding of instructions

The four kinds of instructions share the eight bytes of a record, and each of them leaves other bits
unused. What decoding ignores is therefore different for each kind.

Results:
1. `Instruction.Fields.ofBytes_toBytes`, `Instruction.Fields.toBytes_ofBytes`: the fields and the
   bytes of a record determine one another.
2. `Instruction.ofFields_fields`: an instruction is read back from its fields.
3. `Instruction.Decodes`: what a record that is accepted decodes to. `Decodes.fields_eq_iff` says
   when it is the record of its instruction.
4. `codec_exact`: the codec over all instructions, all records and all compiled programs.
-/

namespace PulseSequencer

namespace Instruction

/-! ## Bytes -/

theorem eq_vector_of_getElem (bytes : Vector UInt8 8) :
    bytes = #v[bytes[0], bytes[1], bytes[2], bytes[3], bytes[4], bytes[5], bytes[6], bytes[7]] := by
  apply Vector.ext
  intro index inside
  match index, inside with
  | 0, _ | 1, _ | 2, _ | 3, _ | 4, _ | 5, _ | 6, _ | 7, _ => rfl

namespace Fields

theorem toNat_low_ofBytes (bytes : Vector UInt8 8) : (ofBytes bytes).low.toNat =
    bytes[0].toNat + 2 ^ 8 * bytes[1].toNat + 2 ^ 16 * bytes[2].toNat
      + 2 ^ 24 * bytes[3].toNat := by
  show (bytes[0].toNat + bytes[1].toNat <<< 8 + bytes[2].toNat <<< 16 + bytes[3].toNat <<< 24)
    % 2 ^ 32 = _
  have bound0 := bytes[0].toNat_lt
  have bound1 := bytes[1].toNat_lt
  have bound2 := bytes[2].toNat_lt
  have bound3 := bytes[3].toNat_lt
  simp only [Nat.shiftLeft_eq]
  omega

theorem toNat_middle_ofBytes (bytes : Vector UInt8 8) :
    (ofBytes bytes).middle.toNat = bytes[4].toNat + 2 ^ 8 * bytes[5].toNat := by
  show (bytes[4].toNat + bytes[5].toNat <<< 8) % 2 ^ 16 = _
  have bound4 := bytes[4].toNat_lt
  have bound5 := bytes[5].toNat_lt
  simp only [Nat.shiftLeft_eq]
  omega

/-- The bytes of a record, as numbers. -/
theorem toNat_toBytes (f : Fields) :
    f.toBytes[0].toNat = f.low.toNat % 2 ^ 8 ∧
    f.toBytes[1].toNat = f.low.toNat / 2 ^ 8 % 2 ^ 8 ∧
    f.toBytes[2].toNat = f.low.toNat / 2 ^ 16 % 2 ^ 8 ∧
    f.toBytes[3].toNat = f.low.toNat / 2 ^ 24 % 2 ^ 8 ∧
    f.toBytes[4].toNat = f.middle.toNat % 2 ^ 8 ∧
    f.toBytes[5].toNat = f.middle.toNat / 2 ^ 8 % 2 ^ 8 := by
  have byte (n position : Nat) :
      (n >>> (8 * position) % 256).toUInt8.toNat = n / 2 ^ (8 * position) % 2 ^ 8 := by
    rw [Nat.shiftRight_eq_div_pow]
    exact Nat.mod_mod _ _
  exact ⟨(byte _ 0).trans (by rw [Nat.mul_zero, Nat.pow_zero, Nat.div_one]), byte _ 1, byte _ 2,
    byte _ 3, (byte _ 0).trans (by rw [Nat.mul_zero, Nat.pow_zero, Nat.div_one]), byte _ 1⟩

theorem ofBytes_toBytes (f : Fields) : ofBytes f.toBytes = f := by
  obtain ⟨byte0, byte1, byte2, byte3, byte4, byte5⟩ := f.toNat_toBytes
  have low : (ofBytes f.toBytes).low = f.low := by
    apply UInt32.toNat_inj.mp
    have bound := f.low.toNat_lt
    rw [toNat_low_ofBytes, byte0, byte1, byte2, byte3]
    omega
  have middle : (ofBytes f.toBytes).middle = f.middle := by
    apply UInt16.toNat_inj.mp
    have bound := f.middle.toNat_lt
    rw [toNat_middle_ofBytes, byte4, byte5]
    omega
  exact (Fields.mk.injEq ..).mpr ⟨low, middle, rfl, rfl⟩

theorem toBytes_ofBytes (bytes : Vector UInt8 8) : (ofBytes bytes).toBytes = bytes := by
  obtain ⟨byte0, byte1, byte2, byte3, byte4, byte5⟩ := (ofBytes bytes).toNat_toBytes
  rw [toNat_low_ofBytes] at byte0 byte1 byte2 byte3
  rw [toNat_middle_ofBytes] at byte4 byte5
  have bound0 := bytes[0].toNat_lt
  have bound1 := bytes[1].toNat_lt
  have bound2 := bytes[2].toNat_lt
  have bound3 := bytes[3].toNat_lt
  have bound4 := bytes[4].toNat_lt
  have bound5 := bytes[5].toNat_lt
  apply Vector.ext
  intro index inside
  match index, inside with
  | 0, _ | 1, _ | 2, _ | 3, _ | 4, _ | 5, _ => exact UInt8.toNat_inj.mp (by omega)
  | 6, _ | 7, _ => rfl

end Fields

theorem toBytes_eq_iff {instruction : Instruction} {bytes : Vector UInt8 8} :
    instruction.toBytes = bytes ↔ instruction.fields = .ofBytes bytes := by
  constructor
  · rintro rfl
    exact (Fields.ofBytes_toBytes _).symm
  · intro same
    rw [toBytes, same, Fields.toBytes_ofBytes]

/-! ## Two numbers in one byte -/

theorem toNat_highNibble (x : UInt8) : (x >>> 4).toNat = x.toNat / 2 ^ 4 := by
  rw [UInt8.toNat_shiftRight, ← Nat.shiftRight_eq_div_pow]
  rfl

theorem toNat_lowNibble (x : UInt8) : (x &&& 0xf).toNat = x.toNat % 2 ^ 4 := by
  rw [UInt8.toNat_and, ← Nat.and_two_pow_sub_one_eq_mod]
  rfl

theorem toNat_nibbles {high low : UInt8} (highLt : high.toNat < 2 ^ 4)
    (lowLt : low.toNat < 2 ^ 4) : (high <<< 4 ||| low).toNat = 2 ^ 4 * high.toNat + low.toNat := by
  have shifted : (high <<< 4).toNat = 2 ^ 4 * high.toNat := by
    rw [UInt8.toNat_shiftLeft, Nat.shiftLeft_eq]
    show high.toNat * 2 ^ 4 % 2 ^ 8 = _
    omega
  rw [UInt8.toNat_or, shifted, Nat.two_pow_add_eq_or_of_lt lowLt]

theorem nibbles_eq (x : UInt8) : (x >>> 4) <<< 4 ||| (x &&& 0xf) = x := by
  have bound := x.toNat_lt
  apply UInt8.toNat_inj.mp
  rw [toNat_nibbles, toNat_highNibble, toNat_lowNibble]
  · exact Nat.div_add_mod _ _
  · rw [toNat_highNibble]
    omega
  · rw [toNat_lowNibble]
    omega

end Instruction

namespace MemorySlot

theorem index_lt (slot : MemorySlot) : slot.index.toNat < 2 ^ 4 := by
  cases slot <;> decide

theorem ofIndex?_index (slot : MemorySlot) : ofIndex? slot.index = some slot := by
  cases slot <;> rfl

theorem index_of_ofIndex? {index : UInt8} {slot : MemorySlot} (found : ofIndex? index = some slot) :
    slot.index = index := by
  unfold ofIndex? at found
  split_ifs at found with first second third fourth <;> cases found
  · exact first.symm
  · exact second.symm
  · exact third.symm
  · exact fourth.symm

theorem ofIndex?_eq_none_iff {index : UInt8} : ofIndex? index = none ↔ 3 < index := by
  have four : 3 < index ↔ ¬(index = 0 ∨ index = 1 ∨ index = 2 ∨ index = 3) := by
    simp only [UInt8.lt_iff_toNat_lt, ← UInt8.toNat_inj, UInt8.reduceToNat]
    omega
  rw [four]
  unfold ofIndex?
  split_ifs <;> simp_all

end MemorySlot

namespace Instruction

/-! ## Instructions -/

/-- The channel of an update has four bits. -/
def Encodable : Instruction → Prop
  | .channelUpdate channel _ _ _ => channel.toNat < 2 ^ 4
  | .setRegister .. => True
  | .conditionalJump _ => True
  | .jump _ => True

theorem IsControl.encodable {instruction : Instruction} (control : instruction.IsControl) :
    instruction.Encodable := by
  cases instruction with
  | channelUpdate => exact control.elim
  | setRegister | conditionalJump | jump => trivial

/-! ## Opcodes -/

section Opcodes

variable {f : Fields}

theorem opcode_cases (x : UInt8) : x &&& 3 = 0 ∨ x &&& 3 = 1 ∨ x &&& 3 = 2 ∨ x &&& 3 = 3 := by
  have below : (x &&& 3).toNat < 2 ^ 2 := by
    rw [UInt8.toNat_and]
    exact Nat.and_lt_two_pow _ (by decide)
  simp only [← UInt8.toNat_inj, UInt8.reduceToNat]
  omega

theorem ofFields_of_update (opcode : f.opcode &&& 3 = 0) : ofFields f =
    match MemorySlot.ofIndex? (f.detail >>> 4) with
    | some slot => .ok (.channelUpdate (f.detail &&& 0xf) slot f.middle f.low)
    | none => .error (.invalidSlot (f.detail >>> 4)) :=
  if_pos opcode

theorem ofFields_of_write (opcode : f.opcode &&& 3 = 1) :
    ofFields f = .ok (.setRegister f.middle f.low) := by
  simp [ofFields, opcode]

theorem ofFields_of_conditional (opcode : f.opcode &&& 3 = 2) : ofFields f =
    if f.middle < 256 then .ok (.conditionalJump f.middle.toUInt8)
    else .error (.invalidCounterRegister f.middle) := by
  simp [ofFields, opcode]

theorem ofFields_of_jump (opcode : f.opcode &&& 3 = 3) : ofFields f = .ok (.jump f.middle) := by
  simp [ofFields, opcode]

end Opcodes

/-- The record of an instruction holds it. -/
theorem ofFields_fields {instruction : Instruction} (encodable : instruction.Encodable) :
    ofFields instruction.fields = .ok instruction := by
  cases instruction with
  | channelUpdate channel slot address data =>
    have packed := toNat_nibbles slot.index_lt encodable
    have high : (slot.index <<< 4 ||| channel) >>> 4 = slot.index := by
      apply UInt8.toNat_inj.mp
      rw [toNat_highNibble, packed, Nat.mul_add_div (by decide), Nat.div_eq_of_lt encodable,
        Nat.add_zero]
    have low : (slot.index <<< 4 ||| channel) &&& 0xf = channel := by
      apply UInt8.toNat_inj.mp
      rw [toNat_lowNibble, packed, Nat.mul_add_mod, Nat.mod_eq_of_lt encodable]
    rw [ofFields_of_update (show updateMarker &&& 3 = 0 by decide), fields, high, low,
      MemorySlot.ofIndex?_index]
  | setRegister register value => exact ofFields_of_write (show (1 : UInt8) &&& 3 = 1 by decide)
  | conditionalJump counter =>
    have small : counter.toUInt16 < 256 := by
      rw [UInt16.lt_iff_toNat_lt, UInt8.toNat_toUInt16]
      exact counter.toNat_lt
    rw [ofFields_of_conditional (show (2 : UInt8) &&& 3 = 2 by decide), fields, if_pos small,
      UInt8.toUInt8_toUInt16]
  | jump address => exact ofFields_of_jump (show (3 : UInt8) &&& 3 = 3 by decide)

theorem ofBytes_toBytes {instruction : Instruction} (encodable : instruction.Encodable) :
    ofBytes instruction.toBytes = .ok instruction := by
  rw [ofBytes, toBytes, Fields.ofBytes_toBytes, ofFields_fields encodable]

/-! ## Records -/

/-- What an accepted record stands for. -/
inductive Decodes (f : Fields) : Instruction → Prop
  | channelUpdate {slot : MemorySlot} (opcode : f.opcode &&& 3 = 0)
      (index : slot.index = f.detail >>> 4) :
      Decodes f (.channelUpdate (f.detail &&& 0xf) slot f.middle f.low)
  | setRegister (opcode : f.opcode &&& 3 = 1) : Decodes f (.setRegister f.middle f.low)
  | conditionalJump (opcode : f.opcode &&& 3 = 2) (small : f.middle < 256) :
      Decodes f (.conditionalJump f.middle.toUInt8)
  | jump (opcode : f.opcode &&& 3 = 3) : Decodes f (.jump f.middle)

theorem decodes_of_ofFields {f : Fields} {instruction : Instruction}
    (ok : ofFields f = .ok instruction) : Decodes f instruction := by
  obtain update | write | conditional | jump := opcode_cases f.opcode
  · rw [ofFields_of_update update] at ok
    split at ok
    case h_1 slot found =>
      cases ok
      exact .channelUpdate update (MemorySlot.index_of_ofIndex? found)
    case h_2 => cases ok
  · rw [ofFields_of_write write] at ok
    cases ok
    exact .setRegister write
  · rw [ofFields_of_conditional conditional] at ok
    split at ok
    case isTrue small =>
      cases ok
      exact .conditionalJump conditional small
    case isFalse => cases ok
  · rw [ofFields_of_jump jump] at ok
    cases ok
    exact .jump jump

/-- Which records are refused, and why. -/
theorem ofFields_eq_error_iff {f : Fields} {error : InstructionError} :
    ofFields f = .error error ↔
      (f.opcode &&& 3 = 0 ∧ f.detail >>> 4 > 3 ∧ error = .invalidSlot (f.detail >>> 4)) ∨
      (f.opcode &&& 3 = 2 ∧ ¬f.middle < 256 ∧ error = .invalidCounterRegister f.middle) := by
  obtain update | write | conditional | jump := opcode_cases f.opcode
  · rw [ofFields_of_update update, update, gt_iff_lt, ← MemorySlot.ofIndex?_eq_none_iff]
    cases MemorySlot.ofIndex? (f.detail >>> 4) <;> simp [eq_comm]
  · simp [ofFields_of_write write, write]
  · rw [ofFields_of_conditional conditional, conditional]
    by_cases small : f.middle < 256 <;> simp [small, eq_comm]
  · simp [ofFields_of_jump jump, jump]

/-- The bits of a record that its kind leaves unused have their fixed values. -/
structure Fields.Canonical (f : Fields) : Prop where
  opcode : f.opcode ∈ [updateMarker, 1, 2, 3]
  detail : f.opcode &&& 3 ≠ 0 → f.detail = 0
  low : 2 ≤ f.opcode &&& 3 → f.low = 0

theorem canonical_fields (instruction : Instruction) : instruction.fields.Canonical := by
  cases instruction with
  | channelUpdate =>
    exact ⟨by simp [fields], fun control => absurd (show updateMarker &&& 3 = 0 by decide) control,
      fun jump => absurd jump (show ¬(2 : UInt8) ≤ updateMarker &&& 3 by decide)⟩
  | setRegister =>
    exact ⟨by simp [fields], fun _ => rfl,
      fun jump => absurd jump (show ¬(2 : UInt8) ≤ 1 &&& 3 by decide)⟩
  | conditionalJump | jump => exact ⟨by simp [fields], fun _ => rfl, fun _ => rfl⟩

/-- The two low bits determine the last byte of a canonical record. -/
theorem opcode_eq_of_canonical {f g : Fields} (first : f.Canonical) (second : g.Canonical)
    (same : f.opcode &&& 3 = g.opcode &&& 3) : f.opcode = g.opcode := by
  have distinct : ∀ x ∈ [updateMarker, 1, 2, 3], ∀ y ∈ [updateMarker, 1, 2, 3],
      x &&& 3 = y &&& 3 → x = y := by
    decide +kernel
  exact distinct _ first.opcode _ second.opcode same

namespace Decodes

variable {f : Fields} {instruction : Instruction}

theorem encodable (decodes : Decodes f instruction) : instruction.Encodable := by
  cases decodes with
  | channelUpdate =>
    rw [Encodable, toNat_lowNibble]
    exact Nat.mod_lt _ (by decide)
  | setRegister | conditionalJump | jump => trivial

theorem opcode_eq (decodes : Decodes f instruction) :
    instruction.fields.opcode &&& 3 = f.opcode &&& 3 := by
  cases decodes with
  | channelUpdate opcode => exact (show updateMarker &&& 3 = 0 by decide).trans opcode.symm
  | setRegister opcode => exact (show (1 : UInt8) &&& 3 = 1 by decide).trans opcode.symm
  | conditionalJump opcode => exact (show (2 : UInt8) &&& 3 = 2 by decide).trans opcode.symm
  | jump opcode => exact (show (3 : UInt8) &&& 3 = 3 by decide).trans opcode.symm

/-- A record is that of its instruction exactly if it is canonical. -/
theorem fields_eq_iff (decodes : Decodes f instruction) :
    instruction.fields = f ↔ f.Canonical := by
  constructor
  · intro same
    exact same ▸ canonical_fields instruction
  intro canonical
  have last := opcode_eq_of_canonical (canonical_fields instruction) canonical decodes.opcode_eq
  cases decodes with
  | channelUpdate opcode index =>
    exact (Fields.mk.injEq ..).mpr ⟨rfl, rfl, by rw [index, nibbles_eq], last⟩
  | setRegister opcode =>
    have unused : f.detail = 0 := canonical.detail (by rw [opcode]; decide)
    exact (Fields.mk.injEq ..).mpr ⟨rfl, rfl, unused.symm, last⟩
  | conditionalJump opcode small =>
    have unused : f.detail = 0 := canonical.detail (by rw [opcode]; decide)
    have unusedLow : f.low = 0 := canonical.low (by rw [opcode]; decide)
    have middle : f.middle.toUInt8.toUInt16 = f.middle := by
      apply UInt16.toNat_inj.mp
      rw [UInt8.toNat_toUInt16, UInt16.toNat_toUInt8]
      exact Nat.mod_eq_of_lt (UInt16.lt_iff_toNat_lt.mp small)
    exact (Fields.mk.injEq ..).mpr ⟨unusedLow.symm, middle, unused.symm, last⟩
  | jump opcode =>
    have unused : f.detail = 0 := canonical.detail (by rw [opcode]; decide)
    have unusedLow : f.low = 0 := canonical.low (by rw [opcode]; decide)
    exact (Fields.mk.injEq ..).mpr ⟨unusedLow.symm, rfl, unused.symm, last⟩

end Decodes

/-! ## Bytes of records -/

/-- The bits that a record of eight bytes leaves unused have their fixed values. -/
def Canonical (bytes : Vector UInt8 8) : Prop :=
  bytes[7] ∈ [updateMarker, 1, 2, 3] ∧
  (bytes[7] &&& (3 : UInt8) ≠ 0 → bytes[6] = 0) ∧
  ((2 : UInt8) ≤ bytes[7] &&& 3 → bytes[0] = 0 ∧ bytes[1] = 0 ∧ bytes[2] = 0 ∧ bytes[3] = 0)

instance (bytes : Vector UInt8 8) : Decidable (Canonical bytes) :=
  inferInstanceAs (Decidable (_ ∧ _ ∧ _))

theorem low_ofBytes_eq_zero_iff {bytes : Vector UInt8 8} : (Fields.ofBytes bytes).low = 0 ↔
    bytes[0] = 0 ∧ bytes[1] = 0 ∧ bytes[2] = 0 ∧ bytes[3] = 0 := by
  simp only [← UInt32.toNat_inj, ← UInt8.toNat_inj, Fields.toNat_low_ofBytes, UInt32.reduceToNat,
    UInt8.reduceToNat]
  omega

theorem middle_ofBytes_lt_iff {bytes : Vector UInt8 8} :
    (Fields.ofBytes bytes).middle < 256 ↔ bytes[5] = 0 := by
  have bound := bytes[4].toNat_lt
  simp only [UInt16.lt_iff_toNat_lt, ← UInt8.toNat_inj, Fields.toNat_middle_ofBytes,
    UInt16.reduceToNat, UInt8.reduceToNat]
  omega

theorem canonical_ofBytes_iff {bytes : Vector UInt8 8} :
    (Fields.ofBytes bytes).Canonical ↔ Canonical bytes := by
  rw [Canonical, ← low_ofBytes_eq_zero_iff]
  exact ⟨fun canonical => ⟨canonical.opcode, canonical.detail, canonical.low⟩,
    fun ⟨opcode, detail, low⟩ => ⟨opcode, detail, low⟩⟩

/-! ## Binary images -/

/-- A binary image cut into records. There are none if bytes are left over. -/
def pieces : List UInt8 → Option (List (Vector UInt8 8))
  | [] => some []
  | b0 :: b1 :: b2 :: b3 :: b4 :: b5 :: b6 :: b7 :: rest =>
    (pieces rest).map (#v[b0, b1, b2, b3, b4, b5, b6, b7] :: ·)
  | _ => none

theorem pieces_flatMap (records : List (Vector UInt8 8)) :
    pieces (records.flatMap Vector.toList) = some records := by
  induction records with
  | nil => rfl
  | cons record rest ih =>
    rw [List.flatMap_cons, eq_vector_of_getElem record]
    show (pieces (rest.flatMap Vector.toList)).map _ = _
    rw [ih]
    rfl

end Instruction

/-! ## Compiled programs -/

namespace Program

/-- The image of a program whose instructions can be encoded is read back word by word. -/
theorem decode_toBytes {program : Program}
    (encodable : ∀ word ∈ program.words, word.instruction.Encodable) :
    (Instruction.pieces program.toBytes).map (List.map Instruction.ofBytes) =
      some (program.words.map fun word => .ok word.instruction) := by
  have image : program.toBytes =
      (program.words.map fun word => word.instruction.toBytes).flatMap Vector.toList :=
    (List.flatMap_map ..).symm
  rw [image, Instruction.pieces_flatMap, Option.map_some, List.map_map]
  refine congrArg some (List.map_congr_left fun word present => ?_)
  exact Instruction.ofBytes_toBytes (encodable word present)

theorem MemoryMap.encodable {program : Program} {channel : UInt8} {top limit : Nat}
    (mapped : program.MemoryMap channel top limit) (small : channel.toNat < 2 ^ 4) :
    ∀ word ∈ program.words, word.instruction.Encodable := by
  intro word present
  obtain control | ⟨slot, data, isUpdate⟩ := mapped.instruction_cases present
  · exact control.encodable
  · rw [isUpdate]
    exact small

end Program

theorem Stages.encodable {options : CompileOptions} {element : Element} {group : String}
    {channels : ChannelSet} {program : Program} {projected : Element} {rf top : Nat}
    {graph assigned : ProgramGraph} {layout : Layout}
    (stages : Stages options element group channels program projected rf top graph assigned
      layout) : ∀ word ∈ program.words, word.instruction.Encodable := by
  obtain ⟨index, _, rfl⟩ := rfOutput_eq_ok stages.foundOutput
  have small : index.val < 2 ^ 4 := index.isLt.trans (by decide)
  refine stages.memoryMap.encodable ?_
  rwa [Nat.toUInt8_eq, UInt8.toNat_ofNat_of_lt' (small.trans (by decide))]

open Instruction in
/-- The codec is exact. Every instruction is read back from its record. A record is refused exactly
for a slot above 3 or a counter above 255, and any other one is the record of its instruction
exactly if it is canonical. A compiled program is read back from its binary image. -/
theorem codec_exact :
    (∀ instruction : Instruction, instruction.Encodable →
      ofBytes instruction.toBytes = .ok instruction) ∧
    (∀ first second : Instruction, first.Encodable → second.Encodable →
      first.toBytes = second.toBytes → first = second) ∧
    (∀ bytes : Vector UInt8 8, (∃ error, ofBytes bytes = .error error) ↔
      bytes[7] &&& (3 : UInt8) = 0 ∧ bytes[6] >>> 4 > (3 : UInt8) ∨
      bytes[7] &&& (3 : UInt8) = 2 ∧ bytes[5] ≠ 0) ∧
    (∀ bytes instruction, ofBytes bytes = .ok instruction →
      ofBytes instruction.toBytes = .ok instruction ∧
      (instruction.toBytes = bytes ↔ Canonical bytes)) ∧
    (∀ options element group channels program events,
      compileGroup options element group channels = .ok (program, events) →
      (pieces program.toBytes).map (List.map ofBytes) =
        some (program.words.map fun word => .ok word.instruction)) := by
  refine ⟨fun _ => ofBytes_toBytes, ?_, ?_, ?_, ?_⟩
  · intro first second encodable encodable' same
    have readBack := ofBytes_toBytes encodable
    rw [same, ofBytes_toBytes encodable'] at readBack
    exact (Except.ok.inj readBack).symm
  · intro bytes
    rw [ne_eq, ← middle_ofBytes_lt_iff]
    simp only [ofBytes, ofFields_eq_error_iff]
    constructor
    · rintro ⟨_, ⟨opcode, high, _⟩ | ⟨opcode, large, _⟩⟩
      · exact .inl ⟨opcode, high⟩
      · exact .inr ⟨opcode, large⟩
    · rintro (⟨opcode, high⟩ | ⟨opcode, large⟩)
      · exact ⟨_, .inl ⟨opcode, high, rfl⟩⟩
      · exact ⟨_, .inr ⟨opcode, large, rfl⟩⟩
  · intro bytes instruction ok
    have decodes := decodes_of_ofFields ok
    refine ⟨ofBytes_toBytes decodes.encodable, ?_⟩
    rw [toBytes_eq_iff, decodes.fields_eq_iff, canonical_ofBytes_iff]
  · intro options element group channels program events ok
    obtain ⟨_, _, _, _, _, _, stages⟩ := compileGroup_eq_ok ok
    exact program.decode_toBytes stages.encodable

open Instruction in
/-- A conditional jump with all unused bits set, and the image of a compiled program. -/
theorem codec_exact_sharedSecond :
    ofBytes #v[0xff, 0xff, 0xff, 0xff, 7, 0, 0xff, 0xfe] = .ok (.conditionalJump 7) ∧
    ofBytes (conditionalJump 7).toBytes = .ok (.conditionalJump 7) ∧
    (conditionalJump 7).toBytes ≠ #v[0xff, 0xff, 0xff, 0xff, 7, 0, 0xff, 0xfe] ∧
    ∃ program events,
      compileGroup ⟨{ Settings.default with addressBits := 5 }, false⟩ sharedSecond "board"
        (.ofList [.rf 0, .digital 0]) = .ok (program, events) ∧
      (pieces program.toBytes).map (List.map ofBytes) =
        some (program.words.map fun word => .ok word.instruction) := by
  obtain ⟨_, _, _, accepted, compiled⟩ := codec_exact
  have jump : ofBytes #v[0xff, 0xff, 0xff, 0xff, 7, 0, 0xff, 0xfe] = .ok (.conditionalJump 7) :=
    (ofFields_of_conditional (by decide)).trans (if_pos (by decide))
  obtain ⟨again, same⟩ := accepted _ _ jump
  have isOk : (compileGroup ⟨{ Settings.default with addressBits := 5 }, false⟩ sharedSecond
      "board" (.ofList [.rf 0, .digital 0])).isOk = true := by
    decide +kernel
  obtain ⟨⟨program, events⟩, ok⟩ := Except.exists_ok_of_isOk isOk
  exact ⟨jump, again, mt same.mp (by decide +kernel), program, events, ok,
    compiled _ _ _ _ _ _ ok⟩

end PulseSequencer
