import Mathlib.Data.List.Nodup
import Mathlib.Tactic.Common
import PulseSequencer.Channel

/-!
# Channels and sets of channels

Channels are told apart by their names, and sets of channels by their members.
-/

namespace PulseSequencer

namespace Channel

theorem position_lt (channel : Channel) : channel.position < 11 := by
  cases channel with
  | rf index => simp only [position]; omega
  | digital index => simp only [position]; omega

theorem position_injective {c d : Channel} (same : c.position = d.position) : c = d := by
  cases c with
  | rf i =>
    cases d with
    | rf j => exact congrArg rf (Fin.ext same)
    | digital j => simp only [position] at same; omega
  | digital i =>
    cases d with
    | rf j => simp only [position] at same; omega
    | digital j => exact congrArg digital (Fin.ext (by simpa [position] using same))

theorem exists_position {i : Nat} (small : i < 11) : ∃ channel : Channel, channel.position = i := by
  by_cases analog : i < 4
  · exact ⟨.rf ⟨i, analog⟩, rfl⟩
  · exact ⟨.digital ⟨i - 4, by omega⟩, by simp only [position]; omega⟩

theorem mem_all (channel : Channel) : channel ∈ all := by
  cases channel with
  | rf index => simp [all]
  | digital index => simp [all]

theorem ofName?_name (channel : Channel) : ofName? channel.name = some channel :=
  (show ∀ channel ∈ all, ofName? channel.name = some channel by decide +kernel) channel
    channel.mem_all

theorem name_injective {c d : Channel} (same : c.name = d.name) : c = d :=
  Option.some.inj (by rw [← ofName?_name, same, ofName?_name])

end Channel

namespace ChannelSet

variable {s t : ChannelSet} {channel other : Channel}

theorem mem_iff : channel ∈ s ↔ s.bits.getLsbD channel.position = true := Iff.rfl

@[simp] theorem not_mem_empty : channel ∉ empty := by
  simp [mem_iff, empty]

@[simp] theorem mem_union : channel ∈ s ∪ t ↔ channel ∈ s ∨ channel ∈ t := by
  show (s.bits ||| t.bits).getLsbD channel.position = true ↔ _
  simp [mem_iff]

@[simp] theorem mem_inter : channel ∈ s ∩ t ↔ channel ∈ s ∧ channel ∈ t := by
  show (s.bits &&& t.bits).getLsbD channel.position = true ↔ _
  simp [mem_iff]

@[simp] theorem mem_insert : channel ∈ s.insert other ↔ channel ∈ s ∨ channel = other := by
  show (s.bits ||| BitVec.twoPow 11 other.position).getLsbD channel.position = true ↔ _
  rw [BitVec.getLsbD_or, BitVec.getLsbD_twoPow, Bool.or_eq_true, ← mem_iff]
  have below := other.position_lt
  refine or_congr_right ?_
  simp only [below, decide_true, Bool.true_and, decide_eq_true_eq]
  exact ⟨fun same => Channel.position_injective same.symm, fun same => by rw [same]⟩

theorem mem_foldl_insert (channels : List Channel) :
    channel ∈ channels.foldl insert s ↔ channel ∈ s ∨ channel ∈ channels := by
  induction channels generalizing s with
  | nil => simp
  | cons first rest ih =>
    rw [List.foldl_cons, ih, mem_insert, List.mem_cons]
    exact or_assoc

@[simp] theorem mem_ofList {channels : List Channel} :
    channel ∈ ofList channels ↔ channel ∈ channels := by
  rw [ofList, mem_foldl_insert]
  simp

@[simp] theorem mem_toList : channel ∈ s.toList ↔ channel ∈ s := by
  rw [toList, List.mem_filter]
  exact and_iff_right channel.mem_all

theorem isEmpty_iff : s.isEmpty = true ↔ ∀ channel, channel ∉ s := by
  unfold isEmpty
  rw [beq_iff_eq]
  constructor
  · intro zero channel present
    rw [mem_iff, zero] at present
    simp at present
  · intro noMember
    refine BitVec.eq_of_getLsbD_eq fun i small => ?_
    obtain ⟨channel, rfl⟩ := Channel.exists_position small
    exact (Bool.eq_false_iff.mpr (noMember channel)).trans BitVec.getLsbD_zero.symm

theorem eq_of_mem (same : ∀ channel, channel ∈ s ↔ channel ∈ t) : s = t := by
  refine congrArg ChannelSet.mk (BitVec.eq_of_getLsbD_eq fun i small => ?_)
  obtain ⟨channel, rfl⟩ := Channel.exists_position small
  exact Bool.eq_iff_iff.mpr (same channel)

theorem ofList_eraseDups (channels : List Channel) : ofList channels.eraseDups = ofList channels :=
  eq_of_mem fun channel => by rw [mem_ofList, mem_ofList, List.mem_eraseDups]

theorem nodup_toList (s : ChannelSet) : s.toList.Nodup :=
  (show Channel.all.Nodup by decide).filter _

end ChannelSet

end PulseSequencer
