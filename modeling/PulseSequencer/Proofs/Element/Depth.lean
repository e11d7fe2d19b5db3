import PulseSequencer.Proofs.Element.NormalForm

/-!
# Normal forms at every depth

The later passes look at single nodes of a projection. What a normal form says of the whole is
stated here of every node: which nodes there are, and that a node without effect on the group is
dead time.

Results:
1. `Element.Divided.apart`: the longest timestamp and the remainder after it do not merge.
2. `Element.Settled.nodes`: what holds at every node of a normal form.
3. `Element.project_nodes`: what holds at every node of a projection.
-/

namespace PulseSequencer

open Duration Clock

namespace Element

variable {group : ChannelSet}

/-- The longest timestamp without updates, alone or in a loop. -/
inductive LongestPart : Element → Prop
  | once : LongestPart (.timestamp .longestDead)
  | loop {times : UInt32} (several : 2 ≤ times.toNat) :
      LongestPart (.repeated (.timestamp .longestDead) times)

/-- The forms of dead time: a timestamp without updates, the longest one in a loop, or such a part
and a remainder. -/
inductive DeadForm : Element → Prop
  | still {t : Timestamp} (still : t.updates = .empty) : DeadForm (.timestamp t)
  | longest {part : Element} (longest : LongestPart part) : DeadForm part
  | split {part : Element} {rest : Timestamp} (longest : LongestPart part)
      (still : rest.updates = .empty) : DeadForm (.sequence [part, .timestamp rest])

/-- What a normal form says of a single node. -/
def NormalNode (group : ChannelSet) : Element → Prop
  | .timestamp t => t.Inside group ∧ Binary64.Within 0 maxDuration t.duration.value
  | .trigger => True
  | .sequence children =>
    children ≠ [] ∧ (∀ child ∈ children, Single child) ∧ children.IsChain Apart
  | .parallel _ => False
  | .repeated body times => 2 ≤ times.toNat ∧ Unmultiplied times body
  | .subroutine _ => True

/-- A node in normal form, which is dead time unless it has an effect on the group. -/
def Proper (group : ChannelSet) (part : Element) : Prop :=
  NormalNode group part ∧ (part.isRelevant group = false → DeadForm part)

theorem longestPart_longestTimes {count : ℕ} (positive : 0 < count) (fits : count ≤ maxCount) :
    LongestPart (longestTimes count) := by
  unfold longestTimes
  split
  · exact .once
  · refine .loop ?_
    rw [toNat_toUInt32 fits]
    omega

/-- The longest timestamp and the remainder after it do not merge. -/
theorem Divided.apart {d : Duration} {count : ℕ} {t : Timestamp} (divided : Divided d count t) :
    Apart (longestTimes count) (.timestamp t) := by
  unfold longestTimes
  split
  · next one =>
    have longest : Timestamp.longestDead.duration.exactSteps = maxDuration.steps :=
      exactSteps_ofSeconds
    obtain ⟨finite, exactly⟩ := Timestamp.longestDead.add_spec t
    -- Together they are as long as what was divided, which no timestamp holds.
    have same : (Timestamp.longestDead.duration + t.duration).exactSteps = d.exactSteps := by
      rw [exactly, longest, divided.exactSteps_eq, one, Nat.cast_one, one_mul]
    have finiteD := isFinite_of_divide divided.found
    refine Timestamp.coalesce_eq_none_iff.mpr (.inr ?_)
    rw [Binary64.lt_iff_steps isFinite_maxDuration finite, value_steps_eq finite finiteD same]
    exact (Binary64.lt_iff_steps isFinite_maxDuration finiteD).mp divided.greater
  · trivial

/-! ## Nodes -/

theorem updates_eq_empty {t : Timestamp} (inside : t.Inside group)
    (irrelevant : (timestamp t).isRelevant group = false) : t.updates = .empty := by
  have foreign : (t.updates.channels ∩ group).isEmpty = true := by
    simpa [isRelevant, hasTrigger, channels, Timestamp.channels] using irrelevant
  rw [← restrict_of_inside inside]
  exact UpdateMap.restrict_eq_empty foreign

theorem Settled.nodes {element : Element} (settled : Settled group element)
    (whole : element.isRelevant group = true ∨ Single element) :
    ∀ part ∈ element.subelements, Proper group part := by
  induction settled with
  | @timestamp t inside =>
    exact List.forall_mem_singleton.mpr
      ⟨⟨inside, t.within⟩, fun irrelevant => .still (updates_eq_empty inside irrelevant)⟩
  | trigger => exact List.forall_mem_singleton.mpr ⟨trivial, fun irrelevant => by cases irrelevant⟩
  | @pause times several =>
    refine List.forall_mem_cons.mpr ⟨⟨⟨several, trivial⟩, fun _ => .longest (.loop several)⟩, ?_⟩
    exact List.forall_mem_singleton.mpr
      ⟨⟨inside_of_still rfl, Timestamp.longestDead.within⟩, fun _ => .still rfl⟩
  | loop relevant _ several unmultiplied ih =>
    refine List.forall_mem_cons.mpr ⟨⟨⟨several, unmultiplied⟩, fun irrelevant => ?_⟩,
      ih (.inl relevant)⟩
    exact absurd relevant (Bool.eq_false_iff.mp irrelevant)
  | subroutine relevant _ ih =>
    refine List.forall_mem_cons.mpr ⟨⟨trivial, fun irrelevant => ?_⟩, ih (.inl relevant)⟩
    exact absurd relevant (Bool.eq_false_iff.mp irrelevant)
  | @sequence children single _ apart ih =>
    have relevant := whole.resolve_right id
    obtain ⟨child, present, _⟩ := isRelevant_sequence.mp relevant
    refine List.forall_mem_cons.mpr
      ⟨⟨⟨List.ne_nil_of_mem present, single, apart⟩, fun irrelevant => ?_⟩, fun part inside => ?_⟩
    · exact absurd relevant (Bool.eq_false_iff.mp irrelevant)
    · obtain ⟨child, present, inChild⟩ := mem_subelementsAll.mp inside
      exact ih child present (.inr (single child present)) part inChild

theorem nodes_dead {d : Duration} {element : Element} (ok : dead d = .ok element) :
    ∀ part ∈ element.subelements, Proper group part := by
  cases (dead_eq_ok ok).2 with
  | single _ still => exact Settled.nodes (.timestamp (inside_of_still still)) (.inr trivial)
  | loop positive fits _ =>
    obtain ⟨single, settled⟩ := settled_longestTimes positive fits
    exact settled.nodes (.inr single)
  | @split count t positive fits still _ =>
    obtain ⟨single, settled⟩ : _ ∧ Settled group _ := settled_longestTimes positive fits
    have settledRest : Settled group (.timestamp t) := .timestamp (inside_of_still still)
    have apart : [longestTimes count, .timestamp t].IsChain Apart := by
      obtain ⟨_, _, divided, same⟩ := divided_of_sequence ok
      rw [same]
      exact List.isChain_pair.mpr divided.apart
    have singles : ∀ child ∈ [longestTimes count, .timestamp t], Single child :=
      List.forall_mem_cons.mpr ⟨single, List.forall_mem_singleton.mpr trivial⟩
    refine List.forall_mem_cons.mpr ⟨⟨⟨List.cons_ne_nil _ _, singles, apart⟩, fun _ =>
      .split (longestPart_longestTimes positive fits) still⟩, fun part inside => ?_⟩
    obtain ⟨child, present, inChild⟩ := mem_subelementsAll.mp inside
    rcases List.mem_pair.mp present with rfl | rfl
    · exact settled.nodes (.inr single) part inChild
    · exact settledRest.nodes (.inr trivial) part inChild

/-- Every node of a projection is in normal form, and what has no effect on the group is dead
time. -/
theorem project_nodes {element result : Element} (ok : element.project group = .ok result) :
    ∀ part ∈ result.subelements,
      NormalNode group part ∧ (part.isRelevant group = false → DeadForm part) := by
  cases normal_project ok with
  | relevant settled relevant => exact settled.nodes (.inl relevant)
  | dead isDead => exact nodes_dead isDead

/-- A long pause between two levels, for the group of the levels. -/
theorem project_nodes_longPause :
    ∃ result, longPause.project (.ofList [.digital 0]) = .ok result ∧
      ∀ part ∈ result.subelements, NormalNode (.ofList [.digital 0]) part ∧
        (part.isRelevant (.ofList [.digital 0]) = false → DeadForm part) := by
  obtain ⟨result, ok⟩ := Except.exists_ok_of_isOk
    (show (longPause.project (.ofList [.digital 0])).isOk = true by decide +kernel)
  exact ⟨result, ok, project_nodes ok⟩

end Element

end PulseSequencer
