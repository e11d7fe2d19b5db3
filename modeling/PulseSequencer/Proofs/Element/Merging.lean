import PulseSequencer.Proofs.Element.Projection

/-!
# Settings of merged timestamps

The outputs hold a setting until a record sets it again, and a record may leave settings out. A
merged timestamp has one record for each channel, so where two records of a channel meet, only the
later one is left.

Results:
1. `Timestamp.coalesce_apply_iff`: a merged timestamp leaves the outputs as the two timestamps do if
   and only if no setting of the earlier records is left out by the later ones.
2. `UpdateMap.covers_of_beq`: between equal updates nothing is lost.
3. `Timestamp.coalesce_loses_level`: a level that is carried into a record without one is lost.
-/

namespace PulseSequencer

/-! ## Settings that are held -/

/-- The settings that the outputs hold. The frequency is the one that the synthesizer generates. -/
structure Outputs where
  frequency : Fin 4 → Binary64
  phase : Fin 4 → Binary64
  amplitude : Fin 4 → Binary64
  level : Fin 7 → Bool

/-- A record overwrites a setting that it has, and keeps what is held otherwise. -/
def overwrite {ρ α : Type} (setting : ρ → Option α) (record : Option ρ) (held : α) : α :=
  (record.bind setting).getD held

def Outputs.apply (outputs : Outputs) (updates : UpdateMap) : Outputs where
  frequency i := overwrite AnalogUpdate.intermediate (updates.analog.get i) (outputs.frequency i)
  phase i := overwrite AnalogUpdate.phase (updates.analog.get i) (outputs.phase i)
  amplitude i := overwrite AnalogUpdate.amplitude (updates.analog.get i) (outputs.amplitude i)
  level i := overwrite DigitalUpdate.level (updates.digital.get i) (outputs.level i)

/-- Where both records are present, the later one has the setting if the earlier one has it. -/
def Covers {ρ α : Type} (setting : ρ → Option α) (earlier later : Option ρ) : Prop :=
  ∀ first second, earlier = some first → later = some second →
    (setting first).isSome = true → (setting second).isSome = true

/-- The later one of two records stands for both if and only if it covers the earlier one. -/
theorem overwrite_or_iff {ρ α : Type} [Nontrivial α] {setting : ρ → Option α}
    {earlier later : Option ρ} :
    (∀ held, overwrite setting (later.or earlier) held
      = overwrite setting later (overwrite setting earlier held)) ↔
    Covers setting earlier later := by
  cases later with
  | none => exact ⟨fun _ _ _ _ absent => (by cases absent), fun _ _ => rfl⟩
  | some second =>
    cases earlier with
    | none => exact ⟨fun _ _ _ absent => (by cases absent), fun _ _ => rfl⟩
    | some first =>
      simp only [overwrite, Option.some_or, Option.bind_some]
      constructor
      · rintro same _ _ ⟨⟩ ⟨⟩ isSet
        obtain ⟨value, hasValue⟩ := Option.isSome_iff_exists.mp isSet
        -- Outputs that hold another value would show that the setting was lost.
        obtain ⟨other, different⟩ := exists_ne value
        by_contra notSet
        have kept := same other
        rw [Option.not_isSome_iff_eq_none.mp notSet, hasValue] at kept
        exact different kept
      · intro covers held
        cases isSet : setting second with
        | some value => rfl
        | none =>
          have notSet : ¬ (setting first).isSome = true := fun firstSet => by
            have secondSet := covers first second rfl rfl firstSet
            rw [isSet] at secondSet
            cases secondSet
          rw [Option.not_isSome_iff_eq_none.mp notSet]
          rfl

instance : Nontrivial Binary64 := ⟨.nan, 0, by decide⟩

/-! ## Update maps -/

/-- On the channels that both update, later records have all settings of the earlier ones. -/
structure UpdateMap.Covers (later earlier : UpdateMap) : Prop where
  frequency : ∀ i,
    PulseSequencer.Covers AnalogUpdate.intermediate (earlier.analog.get i) (later.analog.get i)
  phase : ∀ i, PulseSequencer.Covers AnalogUpdate.phase (earlier.analog.get i) (later.analog.get i)
  amplitude : ∀ i,
    PulseSequencer.Covers AnalogUpdate.amplitude (earlier.analog.get i) (later.analog.get i)
  level : ∀ i,
    PulseSequencer.Covers DigitalUpdate.level (earlier.digital.get i) (later.digital.get i)

theorem Outputs.apply_merge_iff {earlier later : UpdateMap} :
    (∀ outputs : Outputs, outputs.apply (earlier.merge later)
      = (outputs.apply earlier).apply later) ↔ later.Covers earlier := by
  constructor
  · intro same
    have uniform : ∀ (x : Binary64) (on : Bool),
        Outputs.apply ⟨fun _ => x, fun _ => x, fun _ => x, fun _ => on⟩ (earlier.merge later)
          = (Outputs.apply ⟨fun _ => x, fun _ => x, fun _ => x, fun _ => on⟩ earlier).apply later :=
      fun x on => same _
    refine ⟨fun i => ?_, fun i => ?_, fun i => ?_, fun i => ?_⟩
    · refine overwrite_or_iff.mp fun held => ?_
      simpa [apply] using congrFun (congrArg frequency (uniform held true)) i
    · refine overwrite_or_iff.mp fun held => ?_
      simpa [apply] using congrFun (congrArg phase (uniform held true)) i
    · refine overwrite_or_iff.mp fun held => ?_
      simpa [apply] using congrFun (congrArg amplitude (uniform held true)) i
    · refine overwrite_or_iff.mp fun held => ?_
      simpa [apply] using congrFun (congrArg level (uniform 0 held)) i
  · intro covers outputs
    simp only [apply, UpdateMap.analog_merge, UpdateMap.digital_merge, mk.injEq]
    refine ⟨funext fun i => ?_, funext fun i => ?_, funext fun i => ?_, funext fun i => ?_⟩
    · exact overwrite_or_iff.mpr (covers.frequency i) _
    · exact overwrite_or_iff.mpr (covers.phase i) _
    · exact overwrite_or_iff.mpr (covers.amplitude i) _
    · exact overwrite_or_iff.mpr (covers.level i) _

theorem SameSetting.isSome {first second : Option Binary64} (same : SameSetting first second)
    (isSet : first.isSome = true) : second.isSome = true := by
  cases same with
  | none => exact isSet
  | some _ => rfl

/-- Equal updates have the same settings. -/
theorem UpdateMap.covers_of_beq {earlier later : UpdateMap} (equal : (earlier == later) = true) :
    later.Covers earlier := by
  have analog : ∀ (i : Fin 4) (first second : AnalogUpdate), earlier.analog.get i = some first →
      later.analog.get i = some second → (first == second) = true := by
    intro i first second isFirst isSecond
    have same := beq_iff.mp equal (.rf i)
    simp only [get?, isFirst, isSecond, Option.map_some] at same
    obtain ⟨same⟩ := same
    exact same
  refine ⟨fun i first second isFirst isSecond => ?_, fun i first second isFirst isSecond => ?_,
    fun i first second isFirst isSecond => ?_, fun i first second isFirst isSecond => ?_⟩
  · exact (AnalogUpdate.intermediate_congr (analog i first second isFirst isSecond)).isSome
  · exact (AnalogUpdate.beq_iff.mp (analog i first second isFirst isSecond)).2.1.isSome
  · exact (AnalogUpdate.beq_iff.mp (analog i first second isFirst isSecond)).2.2.1.isSome
  · have same := beq_iff.mp equal (.digital i)
    simp only [get?, isFirst, isSecond, Option.map_some] at same
    obtain ⟨rfl⟩ := same
    exact id

/-- A level that is set later replaces any earlier one. -/
theorem UpdateMap.ofLevel_covers (index : Nat) (on : Bool) (earlier : UpdateMap) :
    (ofLevel index (some on)).Covers earlier := by
  refine ⟨fun i first second _ isSecond => ?_, fun i first second _ isSecond => ?_,
    fun i first second _ isSecond => ?_, fun i first second _ isSecond _ => ?_⟩
  · cases (analog_empty i).symm.trans isSecond
  · cases (analog_empty i).symm.trans isSecond
  · cases (analog_empty i).symm.trans isSecond
  · have record : (ofLevel index (some on)).digital.get i
        = if i.val = index then some ⟨some on⟩ else none := Vector.getElem_ofFn i.isLt
    rw [record, Option.ite_none_right_eq_some] at isSecond
    rw [← Option.some.inj isSecond.2]
    rfl

/-! ## Merged timestamps -/

namespace Timestamp

/-- A merged timestamp leaves all outputs as the two timestamps leave them, whatever they held
before, if and only if later records leave out no setting of earlier ones. -/
theorem coalesce_apply_iff {first second merged : Timestamp}
    (found : first.coalesce second = some merged) :
    (∀ outputs : Outputs, outputs.apply merged.updates
      = (outputs.apply first.updates).apply second.updates) ↔
    second.updates.Covers first.updates := by
  rw [(Element.coalesce_eq_some found).2.1]
  exact Outputs.apply_merge_iff

/-- The first digital output is switched on, for no time of its own. -/
def switchOn : Timestamp :=
  .instant (.ofLevel 0 (some true))

/-- The first digital output is switched off, for a second. -/
def switchOff : Timestamp :=
  .second (.ofLevel 0 (some false))

/-- The first digital output keeps its level for a microsecond. -/
def keepLevel : Timestamp :=
  ⟨.ofSeconds (1 / 1000000), .ofLevel 0 none, by decide +kernel⟩

/-- Two records of one output, where the later one sets what the earlier one sets. -/
theorem coalesce_apply_iff_switchOff :
    ∃ merged, switchOn.coalesce switchOff = some merged ∧
      switchOn.updates.digital.get 0 = some ⟨some true⟩ ∧
      switchOff.updates.digital.get 0 = some ⟨some false⟩ ∧
      ∀ outputs : Outputs, outputs.apply merged.updates
        = (outputs.apply switchOn.updates).apply switchOff.updates := by
  have isSome : (switchOn.coalesce switchOff).isSome = true := by decide +kernel
  obtain ⟨merged, found⟩ := Option.isSome_iff_exists.mp isSome
  have covers : switchOff.updates.Covers switchOn.updates := UpdateMap.ofLevel_covers 0 false _
  exact ⟨merged, found, rfl, rfl, (coalesce_apply_iff found).mpr covers⟩

/-- Outputs that were off stay off after the merged timestamp, although the output is switched on
and then keeps its level. -/
theorem coalesce_loses_level :
    ∃ merged, switchOn.coalesce keepLevel = some merged ∧
      ∃ outputs : Outputs, (outputs.apply merged.updates).level 0 = false ∧
        ((outputs.apply switchOn.updates).apply keepLevel.updates).level 0 = true := by
  have isSome : (switchOn.coalesce keepLevel).isSome = true := by decide +kernel
  obtain ⟨merged, found⟩ := Option.isSome_iff_exists.mp isSome
  obtain ⟨_, updates, _⟩ := Element.coalesce_eq_some found
  refine ⟨merged, found, ⟨fun _ => 0, fun _ => 0, fun _ => 0, fun _ => false⟩, ?_, rfl⟩
  rw [updates]
  rfl

end Timestamp

end PulseSequencer
