import Mathlib.Data.List.Chain
import PulseSequencer.Proofs.Element.DeadTime
import PulseSequencer.Proofs.Element.Workspace

/-!
# Normal forms of projections

In a projection rows are flat and no two neighbours in them merge, no loop can be multiplied into
the loop around it, and all that does not concern the group is dead time. A second projection finds
nothing left to do.

Results:
1. `Element.normal_project`: every projection is in normal form.
2. `Element.Settled.project`: what is in normal form projects onto itself.
3. `Element.beq_self`: elements whose durations do not overflow equal themselves.
4. `Element.project_again`: a projection is equal to its own projection, unless an overflow makes
   one of its durations NaN.
5. `Element.project_again_differs`: such a projection.
-/

namespace PulseSequencer

open Duration

namespace Element

variable {group : ChannelSet}

/-! ## Normal forms -/

/-- An element that is not a row. -/
def Single : Element → Prop
  | .sequence _ => False
  | _ => True

/-- Neighbours that do not merge. -/
def Apart : Element → Element → Prop
  | .timestamp first, .timestamp second => first.coalesce second = none
  | _, _ => True

/-- A body that can be repeated `times` times only by a loop of its own. -/
def Unmultiplied (times : UInt32) : Element → Prop
  | .repeated _ inner => 1 <<< 32 ≤ inner.toNat * times.toNat
  | _ => True

/-- The normal form of elements, for the parts that concern the group and those that do not. -/
inductive Settled (group : ChannelSet) : Element → Prop
  | timestamp {t : Timestamp} (inside : t.Inside group) : Settled group (.timestamp t)
  | trigger : Settled group .trigger
  | pause {times : UInt32} (several : 1 < times.toNat) :
      Settled group (.repeated (.timestamp .longestDead) times)
  | loop {body : Element} {times : UInt32} (relevant : body.isRelevant group = true)
      (settled : Settled group body) (several : 1 < times.toNat)
      (unmultiplied : Unmultiplied times body) : Settled group (.repeated body times)
  | subroutine {body : Element} (relevant : body.isRelevant group = true)
      (settled : Settled group body) : Settled group (.subroutine body)
  | sequence {children : List Element} (single : ∀ child ∈ children, Single child)
      (settled : ∀ child ∈ children, Settled group child) (apart : children.IsChain Apart) :
      Settled group (.sequence children)

/-- What a projection can be: a normal form that concerns the group, or dead time. -/
inductive Normal (group : ChannelSet) (element : Element) : Prop
  | relevant (settled : Settled group element) (relevant : element.isRelevant group = true)
  | dead {d : Duration} (ok : dead d = .ok element)

/-! ## Dead time does not concern any group -/

theorem isRelevant_still {t : Timestamp} (still : t.updates = .empty) :
    (timestamp t).isRelevant group = false := by
  rw [Bool.eq_false_iff, Ne, isRelevant_iff]
  rintro (trigger | ⟨channel, updated, _⟩)
  · cases trigger
  · rw [channels, Timestamp.channels, still, UpdateMap.mem_channels, UpdateMap.get?_empty]
      at updated
    cases updated

theorem isRelevant_pause (times : UInt32) :
    (repeated (.timestamp .longestDead) times).isRelevant group = false :=
  isRelevant_still (t := .longestDead) rfl

theorem isRelevant_longestTimes (count : ℕ) : (longestTimes count).isRelevant group = false := by
  unfold longestTimes
  split
  · exact isRelevant_still rfl
  · exact isRelevant_pause _

theorem isRelevant_dead {d : Duration} {element : Element} (ok : dead d = .ok element) :
    element.isRelevant group = false := by
  cases (dead_eq_ok ok).2 with
  | single _ still => exact isRelevant_still still
  | loop => exact isRelevant_longestTimes _
  | split _ _ still _ =>
    rw [Bool.eq_false_iff, Ne, isRelevant_sequence]
    rintro ⟨child, present, relevant⟩
    rcases List.mem_pair.mp present with rfl | rfl
    · rw [isRelevant_longestTimes] at relevant
      cases relevant
    · rw [isRelevant_still still] at relevant
      cases relevant

/-! ## Projections are normal -/

theorem settled_longestTimes {count : ℕ} (positive : 0 < count) (fits : count ≤ maxCount) :
    Single (longestTimes count) ∧ Settled group (longestTimes count) := by
  unfold longestTimes
  split
  · exact ⟨trivial, .timestamp (inside_of_still rfl)⟩
  · refine ⟨trivial, .pause ?_⟩
    rw [toNat_toUInt32 fits]
    omega

theorem parts_of_single {element : Element} (single : Single element) :
    parts element = [element] := by
  cases element with
  | sequence children => cases single
  | _ => rfl

theorem Settled.parts {element : Element} (settled : Settled group element) :
    ∀ part ∈ parts element, Single part ∧ Settled group part := by
  cases element with
  | sequence children =>
    cases settled with
    | sequence single settled _ =>
      exact fun part present => ⟨single part present, settled part present⟩
  | _ => exact List.forall_mem_singleton.mpr ⟨trivial, settled⟩

theorem Normal.parts {element : Element} (normal : Normal group element) :
    ∀ part ∈ parts element, Single part ∧ Settled group part := by
  cases normal with
  | relevant settled _ => exact settled.parts
  | dead ok =>
    cases (dead_eq_ok ok).2 with
    | single _ still =>
      exact List.forall_mem_singleton.mpr ⟨trivial, .timestamp (inside_of_still still)⟩
    | loop positive fits _ =>
      obtain ⟨single, settled⟩ := settled_longestTimes positive fits
      rw [parts_of_single single]
      exact List.forall_mem_singleton.mpr ⟨single, settled⟩
    | split positive fits still _ =>
      exact List.forall_mem_cons.mpr ⟨settled_longestTimes positive fits,
        List.forall_mem_singleton.mpr ⟨trivial, .timestamp (inside_of_still still)⟩⟩

/-- Appending leaves no neighbours that merge. The row is held last element first. -/
theorem isChain_append {row : List Element} (element : Element)
    (apart : row.IsChain (flip Apart)) : (append row element).IsChain (flip Apart) := by
  fun_induction append row element with
  | case1 first before second merged found ih => exact ih apart.tail
  | case2 first before second notMerged => exact .cons_cons notMerged apart
  | case3 row element other =>
    cases row with
    | nil => exact .singleton _
    | cons last before =>
      refine .cons_cons ?_ apart
      show Apart last element
      unfold Apart
      split
      · exact absurd rfl (other _ _ _ rfl)
      · trivial

theorem isChain_foldl_append {row : List Element} (elements : List Element)
    (apart : row.IsChain (flip Apart)) : (elements.foldl append row).IsChain (flip Apart) := by
  induction elements generalizing row with
  | nil => exact apart
  | cons element rest ih => exact ih (isChain_append element apart)

theorem settled_joined {elements : List Element}
    (normal : ∀ element ∈ elements, Normal group element) : Settled group (joined elements) := by
  have merge : ∀ {first second merged}, Timestamp.coalesce first second = some merged →
      Single (.timestamp first) ∧ Settled group (.timestamp first) →
      Single (.timestamp second) ∧ Settled group (.timestamp second) →
      Single (.timestamp merged) ∧ Settled group (.timestamp merged) := by
    rintro first second merged found ⟨_, ⟨inside⟩⟩ ⟨_, ⟨insideSecond⟩⟩
    exact ⟨trivial, .timestamp (inside_coalesce found inside insideSecond)⟩
  have all := forall_joined merge fun element present => (normal element present).parts
  refine .sequence (fun child present => (all child present).1)
    (fun child present => (all child present).2) ?_
  rw [List.isChain_reverse]
  exact isChain_foldl_append _ .nil

theorem settled_repeatTimes {element : Element} {times : UInt32} (several : 1 < times.toNat)
    (settled : Settled group element) (relevant : element.isRelevant group = true) :
    Settled group (element.repeatTimes times) := by
  unfold repeatTimes
  split
  · next body inner =>
    split
    · next fits =>
      cases settled with
      | pause _ =>
        exact absurd relevant (Bool.eq_false_iff.mp (isRelevant_pause inner))
      | loop relevantBody settledBody severalInner unmultiplied =>
        have product := toNat_mul_of_fits fits
        refine .loop relevantBody settledBody ?_ ?_
        · rw [product]
          exact Nat.one_lt_mul_iff.mpr ⟨by omega, by omega, .inl severalInner⟩
        · -- What could not be multiplied with the smaller count cannot be with the larger one.
          cases body with
          | repeated core count =>
            rw [Unmultiplied, product, ← mul_assoc]
            exact unmultiplied.trans (Nat.le_mul_of_pos_right _ (by omega))
          | _ => trivial
    · next exceeds => exact .loop relevant settled several (not_lt.mp exceeds)
  · next other =>
    refine .loop relevant settled several ?_
    cases element with
    | repeated body inner => exact absurd rfl (other body inner)
    | _ => trivial

/-- A reduced element is looked at again, and what does not concern the group is dead time. -/
theorem normal_of_reduce {element result : Element}
    (settled : ∀ {projected}, element.reduce group = .ok projected →
      projected.isRelevant group = true → Settled group projected)
    (ok : element.project group = .ok result) : Normal group result := by
  rw [project_eq] at ok
  split at ok
  · obtain ⟨projected, parts, ok⟩ := Except.bind_eq_ok_iff.mp ok
    split at ok
    · next relevant =>
      cases ok
      exact .relevant (settled parts relevant) relevant
    · exact .dead ok
  · exact .dead ok

theorem Normal.settled {element : Element} (normal : Normal group element)
    (relevant : element.isRelevant group = true) : Settled group element := by
  cases normal with
  | relevant settled _ => exact settled
  | dead ok => exact absurd relevant (Bool.eq_false_iff.mp (isRelevant_dead ok))

theorem isRelevant_repeatTimes (element : Element) (times : UInt32) :
    (element.repeatTimes times).isRelevant group = element.isRelevant group := by
  unfold repeatTimes
  split
  · split <;> rfl
  · rfl

-- `ProjectionSteps` does not serve here: it forgets whether the body of a loop is relevant, and a
-- loop over an irrelevant body is no normal form.
mutual

/-- A projection concerns the group and is in normal form, or it is dead time. -/
theorem normal_project : ∀ {element result : Element}, element.project group = .ok result →
    Normal group result
  | .timestamp t, _ => normal_of_reduce fun parts _ => by
    cases parts
    exact .timestamp (inside_restrict t)
  | .trigger, _ => normal_of_reduce fun parts _ => by
    cases parts
    exact .trigger
  | .sequence children, _ => normal_of_reduce fun parts _ => by
    obtain ⟨results, all, same⟩ := Except.bind_eq_ok_iff.mp parts
    cases same
    exact settled_joined (normal_projectAll all)
  | .parallel _, _ => normal_of_reduce fun parts _ => by cases parts
  | .repeated body times, _ => normal_of_reduce fun parts relevant => by
    rw [reduce] at parts
    split at parts
    · exact absurd relevant (Bool.eq_false_iff.mp (isRelevant_dead parts))
    · next nonzero =>
      obtain ⟨result, ok, same⟩ := Except.bind_eq_ok_iff.mp parts
      have normal := normal_project ok
      cases same
      split at relevant
      · next one =>
        rw [if_pos one]
        exact normal.settled relevant
      · next notOne =>
        rw [if_neg notOne]
        rw [isRelevant_repeatTimes] at relevant
        have zero : times.toNat ≠ 0 := fun same => nonzero (UInt32.toNat_inj.mp same)
        have one : times.toNat ≠ 1 := fun same => notOne (UInt32.toNat_inj.mp same)
        exact settled_repeatTimes (by omega) (normal.settled relevant) relevant
  | .subroutine body, _ => normal_of_reduce fun parts relevant => by
    obtain ⟨result, ok, same⟩ := Except.bind_eq_ok_iff.mp parts
    cases same
    exact .subroutine relevant ((normal_project ok).settled relevant)

theorem normal_projectAll : ∀ {elements results : List Element},
    projectAll elements group = .ok results → ∀ result ∈ results, Normal group result
  | [], results, ok => by
    rw [projectAll] at ok
    cases ok
    simp
  | element :: rest, results, ok => by
    rw [projectAll] at ok
    obtain ⟨later, all, ok⟩ := Except.bind_eq_ok_iff.mp ok
    obtain ⟨result, first, same⟩ := Except.bind_eq_ok_iff.mp ok
    cases same
    exact List.forall_mem_cons.mpr ⟨normal_project first, normal_projectAll all⟩

end

/-! ## Normal forms project onto themselves -/

theorem append_of_apart {row : List Element} {element : Element}
    (apart : (element :: row).IsChain (flip Apart)) : append row element = element :: row := by
  fun_cases append row element with
  | case1 first before second merged found =>
    have notMerged : Apart (.timestamp first) (.timestamp second) := apart.rel
    rw [Apart, found] at notMerged
    cases notMerged
  | case2 => rfl
  | case3 => rfl

theorem foldl_append_of_apart {elements row : List Element}
    (apart : (row.reverse ++ elements).IsChain Apart) :
    elements.foldl append row = elements.reverse ++ row := by
  induction elements generalizing row with
  | nil => rfl
  | cons element rest ih =>
    have split_ : row.reverse ++ element :: rest = (element :: row).reverse ++ rest := by simp
    rw [split_] at apart
    rw [List.foldl_cons, append_of_apart (List.isChain_reverse.mp apart.left_of_append), ih apart]
    simp

theorem joined_of_apart {children : List Element} (single : ∀ child ∈ children, Single child)
    (apart : children.IsChain Apart) : joined children = .sequence children := by
  have flat : children.flatMap parts = children := by
    induction children with
    | nil => rfl
    | cons child rest ih =>
      obtain ⟨first, others⟩ := List.forall_mem_cons.mp single
      rw [List.flatMap_cons, parts_of_single first, ih others apart.tail, List.singleton_append]
  rw [joined, flat, foldl_append_of_apart (by simpa using apart)]
  simp

theorem repeatTimes_of_unmultiplied {body : Element} {times : UInt32}
    (unmultiplied : Unmultiplied times body) : body.repeatTimes times = .repeated body times := by
  cases body with
  | repeated core inner => rw [repeatTimes, if_neg (not_lt.mpr unmultiplied)]
  | _ => rfl

theorem projectAll_of_forall {elements : List Element}
    (all : ∀ element ∈ elements, element.project group = .ok element) :
    projectAll elements group = .ok elements := by
  induction elements with
  | nil => rfl
  | cons element rest ih =>
    obtain ⟨first, others⟩ := List.forall_mem_cons.mp all
    rw [projectAll, ih others, Except.ok_bind, first]
    rfl

/-- An element that concerns the group projects onto itself if nothing in it is left to reduce. -/
theorem project_of_reduce {element : Element} (relevant : element.isRelevant group = true)
    (reduced : element.reduce group = .ok element) : element.project group = .ok element := by
  rw [project_eq, if_pos relevant, reduced, Except.ok_bind, if_pos relevant]
  rfl

theorem project_of_irrelevant {element : Element} (irrelevant : element.isRelevant group = false) :
    element.project group = dead element.duration := by
  rw [project_eq, if_neg (Bool.eq_false_iff.mp irrelevant)]

theorem restrict_of_inside {t : Timestamp} (inside : t.Inside group) : t.restrict group = t := by
  have same : t.updates.restrict group = t.updates := by
    refine UpdateMap.eq_of_get? fun channel => ?_
    rw [UpdateMap.get?_restrict]
    split
    · rfl
    · next outside =>
      by_contra differs
      refine outside (inside channel (UpdateMap.mem_channels.mpr ?_))
      exact Option.isSome_iff_ne_none.mpr (Ne.symm differs)
  rw [Timestamp.restrict, same]

theorem Settled.project {element : Element} (settled : Settled group element)
    (whole : element.isRelevant group = true ∨ Single element) :
    element.project group = .ok element := by
  induction settled with
  | @timestamp t inside =>
    have restricted := restrict_of_inside inside
    by_cases foreign : (t.updates.channels ∩ group).isEmpty = true
    · have still : t.updates = .empty := by
        rw [← restricted]
        exact UpdateMap.restrict_eq_empty foreign
      rw [project_of_irrelevant (isRelevant_still still)]
      exact dead_of_timestamp still
    · refine project_of_reduce ?_ ?_
      · rw [isRelevant, Bool.or_eq_true, Bool.not_eq_true']
        exact .inr (Bool.eq_false_iff.mpr foreign)
      · rw [reduce, restricted]
        rfl
  | trigger => exact project_of_reduce rfl rfl
  | @pause times several =>
    rw [project_of_irrelevant (isRelevant_pause times)]
    exact dead_of_loop several
  | @loop body times relevant settled several unmultiplied ih =>
    refine project_of_reduce relevant ?_
    have zero : times ≠ 0 := by
      rintro rfl
      cases several
    have one : times ≠ 1 := by
      rintro rfl
      exact several.ne rfl
    rw [reduce, if_neg zero, ih (.inl relevant), Except.ok_bind, if_neg one,
      repeatTimes_of_unmultiplied unmultiplied]
    rfl
  | subroutine relevant settled ih =>
    refine project_of_reduce relevant ?_
    rw [reduce, ih (.inl relevant)]
    rfl
  | sequence single settled apart ih =>
    -- An irrelevant row would be divided again as a whole.
    have relevant := whole.resolve_right id
    refine project_of_reduce relevant ?_
    have all := projectAll_of_forall fun child present =>
      ih child present (.inr (single child present))
    rw [reduce, all, Except.ok_bind, joined_of_apart single apart]
    rfl

/-! ## Equality -/

mutual

theorem Emittable.serial {valid : Timestamp → Prop} : ∀ {element : Element},
    element.Emittable valid → element.Serial
  | .timestamp _, _ => List.forall_mem_singleton.mpr fun _ => Element.noConfusion
  | .trigger, _ => List.forall_mem_singleton.mpr fun _ => Element.noConfusion
  | .sequence _, emittable =>
    List.forall_mem_cons.mpr ⟨fun _ => Element.noConfusion, EmittableAll.serial emittable⟩
  | .repeated _ _, emittable =>
    List.forall_mem_cons.mpr ⟨fun _ => Element.noConfusion, Emittable.serial emittable.2⟩
  | .subroutine body, emittable =>
    List.forall_mem_cons.mpr
      ⟨fun _ => Element.noConfusion, Emittable.serial (show body.Emittable valid from emittable)⟩

theorem EmittableAll.serial {valid : Timestamp → Prop} : ∀ {elements : List Element},
    EmittableAll valid elements →
    ∀ part ∈ subelementsAll elements, ∀ children, part ≠ .parallel children
  | [], _ => by simp [subelementsAll]
  | _ :: _, emittable =>
    List.forall_mem_append.mpr ⟨Emittable.serial emittable.1, EmittableAll.serial emittable.2⟩

end

/-- An element that can be played differs from itself only if its duration overflows. -/
theorem beq_self {valid : Timestamp → Prop} {element : Element}
    (emittable : element.Emittable valid) (finite : element.duration.Finite) :
    (element == element) = true :=
  beq_of_finite (finite_subelements emittable.serial finite)

theorem duration_beq_of_beq : ∀ {a b : Element}, (a == b) = true →
    (a.duration == b.duration) = true
  | .timestamp s, .timestamp t, equal => by
    rw [beq_timestamp] at equal
    exact (Bool.and_eq_true_iff.mp equal).1
  | .trigger, .trigger, _ => by decide +kernel
  | .sequence as, .sequence bs, equal => by
    rw [beq_sequence] at equal
    exact (Bool.and_eq_true_iff.mp equal).2
  | .parallel as, .parallel bs, equal => by
    rw [beq_parallel] at equal
    exact (Bool.and_eq_true_iff.mp equal).2
  | .repeated a m, .repeated b n, equal => by
    rw [beq_repeated] at equal
    exact (Bool.and_eq_true_iff.mp equal).2
  | .subroutine a, .subroutine b, equal => duration_beq_of_beq (a := a) (b := b) equal

/-! ## Projections of projections -/

theorem finite_dead {d : Duration} {element : Element} (ok : dead d = .ok element) :
    element.duration.Finite := by
  cases (dead_eq_ok ok).2 with
  | @single t _ _ => exact t.finite
  | @loop count positive fits _ =>
    have emittable : (longestTimes count).Emittable (Timestamp.Inside .empty) :=
      emittable_longestTimes positive fits
    obtain ⟨_, bound⟩ := Clock.divisor_maxDuration.mul_le fits
    refine finite_duration emittable ?_
    rw [exactDuration_longestTimes fits]
    linarith [Clock.divisor_maxDuration.positive, Clock.longest_le_safe]
  | split _ _ _ _ =>
    obtain ⟨count, t, divided, same⟩ := divided_of_sequence ok
    rw [same]
    exact divided.value_eq.1

/-- Dead time projects onto dead time of the same parts. -/
theorem project_dead (group : ChannelSet) {d : Duration} {element : Element}
    (ok : dead d = .ok element) :
    ∃ again, element.project group = .ok again ∧ (again == element) = true := by
  have irrelevant : element.isRelevant group = false := isRelevant_dead ok
  have emittable : element.Emittable (Timestamp.Inside group) := emittable_dead (dead_eq_ok ok).2
  have equal := beq_self emittable (finite_dead ok)
  cases element with
  | sequence children =>
    obtain ⟨count, t, divided, rfl⟩ := divided_of_sequence ok
    obtain ⟨u, dividedAgain, exactly, dead⟩ := divided.again
    refine ⟨_, (project_of_irrelevant irrelevant).trans dead, ?_⟩
    have equalRest : (u == t) = true := by
      refine Bool.and_eq_true_iff.mpr
        ⟨beq_of_exactSteps u.isFinite_value t.isFinite_value exactly, ?_⟩
      rw [dividedAgain.still, divided.still]
      exact BEq.rfl
    have equalRows : ((sequence [longestTimes count, .timestamp u]).duration
        == (sequence [longestTimes count, .timestamp t]).duration) = true := by
      obtain ⟨finite, _, value⟩ := dividedAgain.value_eq
      exact Binary64.numEq_iff.mpr ⟨value_ne_nan finite, .inl value⟩
    rw [beq_sequence, beqAll_cons] at equal ⊢
    rw [(Bool.and_eq_true_iff.mp (Bool.and_eq_true_iff.mp equal).1).1, beqAll_cons, beq_timestamp,
      equalRest, equalRows]
    rfl
  | _ =>
    refine ⟨_, Settled.project ?_ (.inr trivial), equal⟩
    exact ((Normal.dead ok).parts _ (List.mem_singleton_self _)).2

/-- A projection projects onto itself, up to the partial sums of dead time. The two are equal
exactly if no overflow makes a duration in the projection NaN, which cannot happen below `2 ^ 1019`
seconds. The second one is stored anew and shares nothing with the first one, so that no address
decides whether they are equal. -/
theorem project_again {element result : Element} (ok : element.project group = .ok result)
    (finite : element.duration.value.isFinite = true) :
    ∃ again, result.project group = .ok again ∧
      (result.isRelevant group = true → again = result) ∧
      ((again == result) = true ↔ ∀ part ∈ result.subelements, part.duration.value ≠ .nan) ∧
      (result.duration.value.isFinite = true → (again == result) = true) ∧
      (element.duration.value < Binary64.ofNat (2 ^ 1019) → (again == result) = true) ∧
      ∀ {constructions : List Construction} {top : Object} {rest : List Object} {free : Nat},
        Workspace.empty.run constructions = .ok ⟨top :: rest, free⟩ → top.element = result →
        ∃ object next, Workspace.perform ⟨top :: rest, free⟩ (.project group)
            = .ok ⟨object :: rest, next⟩ ∧
          object.element = again ∧ object.equal top = (again == result) := by
  have emittable := project_emittable ok
  cases normal_project ok with
  | relevant settled relevant =>
    have projected := settled.project (.inl relevant)
    refine ⟨result, projected, fun _ => rfl, beq_self_iff, fun finiteResult => ?_, fun short => ?_,
      fun made isResult => Workspace.perform_project made isResult projected⟩
    · exact beq_self emittable (finite_of_value finiteResult)
    · have small := (exactDuration_project ok).trans_le (exactDuration_le_safe finite short)
      exact beq_self emittable (finite_duration emittable small)
  | dead isDead =>
    obtain ⟨again, projected, equal⟩ := project_dead group isDead
    have numbers := beq_self_iff.mp (beq_self emittable (finite_dead isDead))
    refine ⟨again, projected, fun relevant => ?_, iff_of_true equal numbers, fun _ => equal,
      fun _ => equal, fun made isResult => Workspace.perform_project made isResult projected⟩
    exact absurd relevant (Bool.eq_false_iff.mp (isRelevant_dead isDead))

/-- A long pause, for a group that sets levels around it and for one that does not take part. -/
theorem project_again_longPause :
    (∃ result again, longPause.project (.ofList [.digital 0]) = .ok result ∧
      result.project (.ofList [.digital 0]) = .ok again ∧ (again == result) = true) ∧
    ∃ result again, longPause.project (.ofList [.digital 2]) = .ok result ∧
      result.project (.ofList [.digital 2]) = .ok again ∧ (again == result) = true := by
  have finite : longPause.duration.value.isFinite = true := by decide +kernel
  have short : longPause.duration.value < Binary64.ofNat (2 ^ 1019) := by decide +kernel
  obtain ⟨result, ok⟩ := Except.exists_ok_of_isOk
    (show (longPause.project (.ofList [.digital 0])).isOk = true by decide +kernel)
  obtain ⟨foreign, okForeign⟩ := Except.exists_ok_of_isOk
    (show (longPause.project (.ofList [.digital 2])).isOk = true by decide +kernel)
  obtain ⟨again, projected, _, _, _, equal, _⟩ := project_again ok finite
  obtain ⟨foreignAgain, projectedForeign, _, _, _, equalForeign, _⟩ :=
    project_again okForeign finite
  exact ⟨⟨result, again, ok, projected, equal short⟩,
    foreign, foreignAgain, okForeign, projectedForeign, equalForeign short⟩

theorem project_again_differs :
    (nested 33 unevenRow).duration.value.isFinite = true ∧
    ∃ result again, (nested 33 unevenRow).project (.ofList [.digital 0]) = .ok result ∧
      result.project (.ofList [.digital 0]) = .ok again ∧ (again == result) = false := by
  obtain ⟨finite, result, ok, isNan⟩ := exists_overflow
  refine ⟨finite, result, ?_⟩
  cases normal_project ok with
  | relevant settled relevant =>
    refine ⟨result, ok, settled.project (.inl relevant), Bool.eq_false_iff.mpr fun equal => ?_⟩
    exact (Binary64.numEq_iff.mp (duration_beq_of_beq equal)).1 isNan
  | dead isDead => exact absurd isNan (value_ne_nan (finite_dead isDead))

end Element

end PulseSequencer
