import PulseSequencer.Proofs.Element.Sharing

/-!
# Hashing of elements

Tables of elements are searched by a hash of the key first, and keys with another hash are never
compared. This finds equal keys only if equal elements are hashed alike, so what is given to the
hash function leaves out all that equality leaves out: the sign of a zero, the parts in which a
duration is held, and the addresses. The hash function itself is left open.

Results:
1. `Timestamp.hashed_eq`: equal timestamps are hashed alike.
2. `Element.hashed_eq`: equal elements are hashed alike.
-/

namespace PulseSequencer

/-! ## What is given to the hash function -/

/-- One value that is hashed. Variants of a type and numbers of elements have the size of an
address. -/
inductive HashInput where
  | byte (value : UInt8)
  | word (value : UInt32)
  | long (value : UInt64)
  | size (value : Nat)

namespace HashInput

/-- A number, where both zeros are the same. -/
def ofNumber (x : Binary64) : List HashInput :=
  [.long (if x.isZero then 0 else x.toBits)]

def ofOption : Option (List HashInput) → List HashInput
  | none => [.size 0]
  | some inputs => .size 1 :: inputs

/-- The number of parts before the parts. -/
def ofParts (parts : List (List HashInput)) : List HashInput :=
  .size parts.length :: parts.flatten

end HashInput

open HashInput (ofNumber ofOption ofParts)

def Channel.hashed : Channel → List HashInput
  | .rf index => [.size 0, .byte index.val.toUInt8]
  | .digital index => [.size 1, .byte index.val.toUInt8]

def ChannelSet.hashed (channels : ChannelSet) : List HashInput :=
  ofParts (channels.toList.map Channel.hashed)

def Update.hashed : Update → List HashInput
  | .analog update =>
    .size 0 :: ofParts
      [ofOption (update.frequency.map ofNumber), ofOption (update.phase.map ofNumber),
        ofOption (update.amplitude.map ofNumber), ofOption (some (ofNumber update.loOffset))]
  | .digital update => .size 1 :: ofOption (update.level.map fun level => [.byte level.toUInt8])

def UpdateMap.hashed (updates : UpdateMap) : List HashInput :=
  ofParts (updates.toList.map fun (channel, update) => channel.hashed ++ update.hashed)

def Timestamp.hashed (t : Timestamp) : List HashInput :=
  ofNumber t.duration.value ++ t.updates.hashed ++ t.channels.hashed

namespace Element

/-- What is kept with elements in a row or side by side. -/
def hashedSummary (e : Element) : List HashInput :=
  ofNumber e.duration.value ++ e.channels.hashed ++ [.byte e.hasTrigger.toUInt8]

mutual

def hashed : Element → List HashInput
  | .timestamp t => .size 0 :: t.hashed
  | .sequence children =>
    .size 1 :: ofParts (hashedAll children) ++ hashedSummary (.sequence children)
  | .repeated body times =>
    .size 2 :: body.hashed ++ .word times :: ofNumber (duration (.repeated body times)).value
  | .subroutine body => .size 3 :: body.hashed
  | .trigger => [.size 4]
  | .parallel children =>
    .size 5 :: ofParts (hashedAll children) ++ hashedSummary (.parallel children)

def hashedAll : List Element → List (List HashInput)
  | [] => []
  | element :: rest => element.hashed :: hashedAll rest

end

end Element

/-! ## Equal elements -/

theorem HashInput.ofNumber_eq {x y : Binary64} (same : x.SameNumber y) :
    ofNumber x = ofNumber y := by
  rcases same with rfl | ⟨zeroX, zeroY⟩
  · rfl
  · rw [ofNumber, ofNumber, if_pos zeroX, if_pos zeroY]

theorem HashInput.ofOption_eq {first second : Option Binary64} (same : SameSetting first second) :
    ofOption (first.map ofNumber) = ofOption (second.map ofNumber) := by
  cases same with
  | none => rfl
  | some same => exact congrArg (.size 1 :: ·) (ofNumber_eq same)

theorem Update.hashed_eq {first second : Update} (same : first.Same second) :
    first.hashed = second.hashed := by
  cases first with
  | analog a =>
    cases second with
    | analog b =>
      obtain ⟨frequency, phase, amplitude, loOffset⟩ := AnalogUpdate.beq_iff.mp same
      rw [hashed, hashed, HashInput.ofOption_eq frequency, HashInput.ofOption_eq phase,
        HashInput.ofOption_eq amplitude, HashInput.ofNumber_eq loOffset]
    | digital b => exact same.elim
  | digital a =>
    cases second with
    | analog b => exact same.elim
    | digital b =>
      obtain rfl : a = b := same
      rfl

theorem UpdateMap.hashed_eq {u v : UpdateMap} (equal : (u == v) = true) : u.hashed = v.hashed := by
  refine congrArg ofParts ?_
  rw [toList, toList, List.map_filterMap, List.map_filterMap]
  refine List.filterMap_congr fun channel _ => ?_
  have records := beq_iff.mp equal channel
  generalize u.get? channel = first at records ⊢
  generalize v.get? channel = second at records ⊢
  cases records with
  | none => rfl
  | some same => exact congrArg (some <| channel.hashed ++ ·) (Update.hashed_eq same)

theorem Duration.hashed_eq {d e : Duration} (equal : (d == e) = true) :
    ofNumber d.value = ofNumber e.value :=
  HashInput.ofNumber_eq (Binary64.numEq_iff.mp equal).2

theorem Timestamp.hashed_eq {s t : Timestamp} (equal : (s == t) = true) : s.hashed = t.hashed := by
  obtain ⟨durations, updates⟩ := Bool.and_eq_true_iff.mp equal
  rw [hashed, hashed, Duration.hashed_eq durations, UpdateMap.hashed_eq updates, channels, channels,
    UpdateMap.channels_congr updates]

namespace Element

theorem hashedSummary_eq {a b : Element} (alike : Alike a b)
    (durations : (a.duration == b.duration) = true) : a.hashedSummary = b.hashedSummary := by
  rw [hashedSummary, hashedSummary, Duration.hashed_eq durations, alike.channels_eq,
    alike.hasTrigger_eq]

mutual

/-- Equal elements are hashed alike. -/
theorem hashed_eq {a b : Element} (equal : (a == b) = true) : a.hashed = b.hashed := by
  match a, b, equal, alike_of_beq equal with
  | .timestamp s, .timestamp t, equal, _ =>
    rw [beq_timestamp] at equal
    rw [hashed, hashed, Timestamp.hashed_eq equal]
  | .trigger, .trigger, _, _ => rfl
  | .sequence as, .sequence bs, equal, alike =>
    rw [beq_sequence, Bool.and_eq_true] at equal
    rw [hashed, hashed, hashedAll_eq equal.1, hashedSummary_eq alike equal.2]
  | .parallel as, .parallel bs, equal, alike =>
    rw [beq_parallel, Bool.and_eq_true] at equal
    rw [hashed, hashed, hashedAll_eq equal.1, hashedSummary_eq alike equal.2]
  | .repeated a m, .repeated b n, equal, _ =>
    rw [beq_repeated, Bool.and_eq_true, Bool.and_eq_true] at equal
    obtain ⟨⟨times, bodies⟩, durations⟩ := equal
    rw [hashed, hashed, hashed_eq bodies, Duration.hashed_eq durations, eq_of_beq times]
  | .subroutine a, .subroutine b, equal, _ =>
    rw [beq_subroutine] at equal
    rw [hashed, hashed, hashed_eq equal]

theorem hashedAll_eq {as bs : List Element} (equal : beqAll as bs = true) :
    hashedAll as = hashedAll bs := by
  match as, bs, equal with
  | [], [], _ => rfl
  | a :: as, b :: bs, equal =>
    rw [beqAll_cons, Bool.and_eq_true] at equal
    rw [hashedAll, hashedAll, hashed_eq equal.1, hashedAll_eq equal.2]

end

end Element

end PulseSequencer
