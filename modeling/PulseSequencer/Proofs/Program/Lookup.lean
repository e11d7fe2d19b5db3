import PulseSequencer.Program.Basic

/-!
# Looking up an address

A program keeps its words by ascending addresses, and words of one address in the order in which
they were given. So all words of lower addresses come first, and behind them the words of an address
stand together. Where they begin is found by halving. In another order there may be no such place.

Results:
1. `stableSort_ofWords`, `StableSort.unique`: the words of a program are the stable sort of the
   given ones, and no other list is.
2. `boundary_bisect`: halving ascending words ends at the place where an address begins.
3. `instructionsAt_ofWords`: looking up an address finds the words of that address in the order in
   which they were given.
4. `ofWords_agrees_with_scan`: the same for every way to find where they begin.
-/

namespace PulseSequencer

namespace Program

/-! ## Stable order -/

/-- The same words by ascending addresses, with words of one address in the same order. -/
structure StableSort (words sorted : List ProgramWord) : Prop where
  ascending : sorted.Pairwise fun a b => a.address ≤ b.address
  perm : sorted.Perm words
  stable : ∀ address : UInt16, sorted.filter (fun word => word.address = address)
    = words.filter fun word => word.address = address

/-- The order of words by address. -/
theorem address_le_trans (a b c : ProgramWord) (first : decide (a.address ≤ b.address) = true)
    (second : decide (b.address ≤ c.address) = true) : decide (a.address ≤ c.address) = true := by
  simp only [decide_eq_true_eq] at *
  exact UInt16.le_trans first second

theorem address_le_total (a b : ProgramWord) :
    (decide (a.address ≤ b.address) || decide (b.address ≤ a.address)) = true := by
  simp only [Bool.or_eq_true, decide_eq_true_eq]
  exact UInt16.le_total a.address b.address

/-- Sorting by address keeps the words of one address in their order. -/
theorem filter_mergeSort (words : List ProgramWord) (address : UInt16) :
    (words.mergeSort fun a b => a.address ≤ b.address).filter
      (fun word => word.address = address)
      = words.filter fun word => word.address = address := by
  -- The words of one address are in order already, so they are a sublist of the sorted ones.
  have ordered : (words.filter fun word => word.address = address).Pairwise
      fun a b => decide (a.address ≤ b.address) = true := by
    refine List.Pairwise.imp_of_mem ?_ (List.pairwise_of_forall fun _ _ => trivial)
    intro a b inA inB _
    simp only [List.mem_filter, decide_eq_true_eq] at inA inB ⊢
    rw [inA.2, inB.2]
    exact UInt16.le_refl _
  have sublist :=
    List.sublist_mergeSort address_le_trans address_le_total ordered List.filter_sublist
  have filtered := sublist.filter fun word => decide (word.address = address)
  rw [List.filter_filter] at filtered
  simp only [Bool.and_self] at filtered
  have perm := (List.mergeSort_perm words fun a b => decide (a.address ≤ b.address)).filter
    fun word => decide (word.address = address)
  exact (filtered.eq_of_length perm.length_eq.symm).symm

theorem stableSort_ofWords (words : List ProgramWord) (layout : Layout) :
    StableSort words (ofWords words layout).words := by
  have ascending := List.pairwise_mergeSort address_le_trans address_le_total words
  simp only [decide_eq_true_eq] at ascending
  exact ⟨ascending, List.mergeSort_perm words _, filter_mergeSort words⟩

/-- The first of ascending words has the lowest address. -/
theorem head_le_of_ascending {first word : ProgramWord} {rest : List ProgramWord}
    (ascending : (first :: rest).Pairwise fun a b => a.address ≤ b.address)
    (present : word ∈ first :: rest) : first.address ≤ word.address := by
  rcases List.mem_cons.mp present with rfl | inRest
  · exact UInt16.le_refl _
  · exact (List.pairwise_cons.mp ascending).1 word inRest

section Unique

variable {left right : List ProgramWord}
  (same : ∀ address : UInt16, left.filter (fun word => word.address = address)
    = right.filter fun word => word.address = address)

include same

theorem mem_iff_of_filter_eq (word : ProgramWord) : word ∈ left ↔ word ∈ right := by
  have filtered : word ∈ left.filter (fun other => other.address = word.address)
      ↔ word ∈ right.filter fun other => other.address = word.address := by
    rw [same]
  simpa using filtered

/-- Ascending words are determined by the words of each address. -/
theorem eq_of_filter_eq (ascendingLeft : left.Pairwise fun a b => a.address ≤ b.address)
    (ascendingRight : right.Pairwise fun a b => a.address ≤ b.address) : left = right := by
  induction left generalizing right with
  | nil =>
    refine (List.eq_nil_iff_forall_not_mem.mpr fun word present => ?_).symm
    exact absurd ((mem_iff_of_filter_eq same word).mpr present) List.not_mem_nil
  | cons first rest ih =>
    have inRight := (mem_iff_of_filter_eq same first).mp List.mem_cons_self
    cases right with
    | nil => cases inRight
    | cons other others =>
      have inLeft := (mem_iff_of_filter_eq same other).mpr List.mem_cons_self
      -- Both lists begin with their lowest address, and the words of that address are the same.
      have address_eq : first.address = other.address :=
        UInt16.le_antisymm (head_le_of_ascending ascendingLeft inLeft)
          (head_le_of_ascending ascendingRight inRight)
      have heads := same other.address
      simp only [List.filter_cons, address_eq, decide_true, if_true, List.cons.injEq] at heads
      obtain ⟨rfl, _⟩ := heads
      have tails : ∀ address : UInt16, rest.filter (fun word => word.address = address)
          = others.filter fun word => word.address = address := by
        intro address
        have filtered := same address
        by_cases shared : first.address = address <;> simpa [shared] using filtered
      rw [ih tails ascendingLeft.of_cons ascendingRight.of_cons]

end Unique

theorem StableSort.unique {words left right : List ProgramWord} (first : StableSort words left)
    (second : StableSort words right) : left = right :=
  eq_of_filter_eq (fun address => (first.stable address).trans (second.stable address).symm)
    first.ascending second.ascending

/-! ## The place of an address -/

/-- The place where `address` begins: the words before it have lower addresses, and no word from
there on has one. -/
structure Boundary (address : UInt16) (words : List ProgramWord) (first : Nat) : Prop where
  inside : first ≤ words.length
  before : ∀ word ∈ words.take first, word.address < address
  behind : ∀ word ∈ words.drop first, ¬ word.address < address

/-- Halves the words until the place is found. -/
def bisect (address : UInt16) (words : List ProgramWord) : Nat :=
  match halves : words.drop (words.length / 2) with
  | [] => 0
  | middle :: upper =>
    if middle.address < address then words.length / 2 + 1 + bisect address upper
    else bisect address (words.take (words.length / 2))
termination_by words.length
decreasing_by
  all_goals
    have length_eq := congrArg List.length halves
    simp only [List.length_drop, List.length_cons, List.length_take] at length_eq ⊢
    omega

namespace Boundary

variable {address : UInt16} {lower upper words : List ProgramWord} {first : Nat}

theorem nil : Boundary address [] 0 :=
  ⟨Nat.le_refl _, by simp, by simp⟩

/-- The lower half has lower addresses only: the place is in the upper half. -/
theorem append_left (low : ∀ word ∈ lower, word.address < address)
    (found : Boundary address upper first) :
    Boundary address (lower ++ upper) (lower.length + first) := by
  refine ⟨?_, ?_, ?_⟩
  · rw [List.length_append]
    exact Nat.add_le_add_left found.inside _
  · intro word present
    rw [List.take_length_add_append] at present
    rcases List.mem_append.mp present with inLower | inUpper
    · exact low word inLower
    · exact found.before word inUpper
  · rw [List.drop_length_add_append]
    exact found.behind

/-- The upper half has no lower address: the place is in the lower half or at its end. -/
theorem append_right (high : ∀ word ∈ upper, ¬ word.address < address)
    (found : Boundary address lower first) : Boundary address (lower ++ upper) first := by
  refine ⟨?_, ?_, ?_⟩
  · rw [List.length_append]
    exact Nat.le_add_right_of_le found.inside
  · rw [List.take_append_of_le_length found.inside]
    exact found.before
  · intro word present
    rw [List.drop_append_of_le_length found.inside] at present
    rcases List.mem_append.mp present with inLower | inUpper
    · exact found.behind word inLower
    · exact high word inUpper

/-- A scan that skips lower addresses stops at the place. -/
theorem dropWhile_eq (found : Boundary address words first) :
    words.dropWhile (fun word => word.address < address) = words.drop first := by
  conv => lhs; rw [← List.take_append_drop first words]
  rw [List.dropWhile_append_of_pos fun word present => by simpa using found.before word present]
  cases rest : words.drop first with
  | nil => rfl
  | cons word others =>
    have stays := found.behind word (by rw [rest]; exact List.mem_cons_self)
    rw [List.dropWhile_cons_of_neg (by simpa using stays)]

end Boundary

/-- Of ascending words, those before one of them are not above it, and those behind it not below. -/
theorem around_of_ascending {words upper : List ProgramWord} {middle : ProgramWord} {half : Nat}
    (ascending : words.Pairwise fun a b => a.address ≤ b.address)
    (halves : words.drop half = middle :: upper) :
    (∀ word ∈ words.take half, word.address ≤ middle.address) ∧
      ∀ word ∈ middle :: upper, middle.address ≤ word.address := by
  rw [← List.take_append_drop half words, halves] at ascending
  obtain ⟨_, ascendingUpper, across⟩ := List.pairwise_append.mp ascending
  exact ⟨fun word present => across word present middle List.mem_cons_self,
    fun word present => head_le_of_ascending ascendingUpper present⟩

/-- Halving ascending words ends at the place of an address. -/
theorem boundary_bisect (address : UInt16) {words : List ProgramWord}
    (ascending : words.Pairwise fun a b => a.address ≤ b.address) :
    Boundary address words (bisect address words) := by
  fun_induction bisect address words with
  | case1 words halves =>
    have empty : words = [] := by
      have length_le := List.drop_eq_nil_iff.mp halves
      exact List.eq_nil_of_length_eq_zero (by omega)
    rw [empty]
    exact Boundary.nil
  | case2 words middle upper halves below ih =>
    -- All words up to the middle one are below the address.
    obtain ⟨not_above, _⟩ := around_of_ascending ascending halves
    have low : ∀ word ∈ words.take (words.length / 2) ++ [middle], word.address < address := by
      intro word present
      rcases List.mem_append.mp present with inLower | isMiddle
      · exact UInt16.lt_of_le_of_lt (not_above word inLower) below
      · rwa [List.mem_singleton.mp isMiddle]
    have ascendingDrop := ascending.sublist (List.drop_sublist (words.length / 2) words)
    rw [halves] at ascendingDrop
    have found := Boundary.append_left low (ih ascendingDrop.of_cons)
    have whole : words.take (words.length / 2) ++ [middle] ++ upper = words := by
      rw [List.append_assoc, List.singleton_append, ← halves, List.take_append_drop]
    have length_eq : (words.take (words.length / 2) ++ [middle]).length = words.length / 2 + 1 := by
      rw [List.length_append, List.length_take_of_le (Nat.div_le_self _ _), List.length_singleton]
    rwa [whole, length_eq] at found
  | case3 words middle upper halves notBelow ih =>
    -- No word from the middle one on is below the address.
    obtain ⟨_, not_below⟩ := around_of_ascending ascending halves
    have high : ∀ word ∈ words.drop (words.length / 2), ¬ word.address < address := by
      intro word present
      rw [halves] at present
      rw [UInt16.not_lt] at notBelow ⊢
      exact UInt16.le_trans notBelow (not_below word present)
    have ascendingTake := ascending.sublist (List.take_sublist (words.length / 2) words)
    have found := Boundary.append_right high (ih ascendingTake)
    rwa [List.take_append_drop] at found

/-! ## The words of an address -/

/-- The words of the lowest address stand together at the beginning. -/
theorem takeWhile_eq_filter {address : UInt16} {words : List ProgramWord}
    (ascending : words.Pairwise fun a b => a.address ≤ b.address)
    (high : ∀ word ∈ words, ¬ word.address < address) :
    words.takeWhile (fun word => word.address = address)
      = words.filter fun word => word.address = address := by
  induction words with
  | nil => rfl
  | cons word rest ih =>
    obtain ⟨first_le, ascendingRest⟩ := List.pairwise_cons.mp ascending
    by_cases same : word.address = address
    · have highRest := fun later present => high later (List.mem_cons_of_mem _ present)
      simp [same, ih ascendingRest highRest]
    · -- The address is not among the words, as the first one is above it already.
      have none : rest.filter (fun word => word.address = address) = [] := by
        rw [List.filter_eq_nil_iff]
        intro later present equal
        have le := first_le later present
        rw [of_decide_eq_true equal] at le
        exact same (UInt16.le_antisymm le (UInt16.not_lt.mp (high word List.mem_cons_self)))
      simp [same, none]

/-- From its place on, the words of an address are all words of that address. -/
theorem Boundary.takeWhile_drop {address : UInt16} {words : List ProgramWord} {first : Nat}
    (found : Boundary address words first)
    (ascending : words.Pairwise fun a b => a.address ≤ b.address) :
    (words.drop first).takeWhile (fun word => word.address = address)
      = words.filter fun word => word.address = address := by
  have none : (words.take first).filter (fun word => word.address = address) = [] := by
    rw [List.filter_eq_nil_iff]
    intro word present equal
    have below := found.before word present
    rw [of_decide_eq_true equal] at below
    exact UInt16.lt_irrefl _ below
  calc (words.drop first).takeWhile (fun word => word.address = address)
      = (words.drop first).filter fun word => word.address = address :=
        takeWhile_eq_filter (ascending.sublist (List.drop_sublist first words)) found.behind
    _ = (words.take first ++ words.drop first).filter fun word => word.address = address := by
        rw [List.filter_append, none, List.nil_append]
    _ = words.filter fun word => word.address = address := by
        rw [List.take_append_drop]

/-- Looking up an address finds the instructions of the words with that address, in their order. -/
theorem instructionsAt_ofWords (words : List ProgramWord) (layout : Layout) (address : UInt16) :
    (ofWords words layout).instructionsAt address
      = (words.filter fun word => word.address = address).map ProgramWord.instruction := by
  have sort := stableSort_ofWords words layout
  have found := boundary_bisect address sort.ascending
  rw [instructionsAt, found.dropWhile_eq, found.takeWhile_drop sort.ascending, sort.stable]

/-- The instructions of the words with an address that stand together from a place on. -/
def instructionsFrom (program : Program) (first : Nat) (address : UInt16) : List Instruction :=
  ((program.words.drop first).takeWhile fun word => word.address = address).map
    ProgramWord.instruction

/-- The words of a program are the stable sort of the given words. Halving them finds the place of
every address, and from there on, however the place is found, stand the instructions that a scan of
the given words collects. -/
theorem ofWords_agrees_with_scan (words : List ProgramWord) (layout : Layout) (address : UInt16) :
    StableSort words (ofWords words layout).words ∧
    (∀ sorted, StableSort words sorted → sorted = (ofWords words layout).words) ∧
    Boundary address (ofWords words layout).words (bisect address (ofWords words layout).words) ∧
    (∀ first, Boundary address (ofWords words layout).words first →
      (ofWords words layout).instructionsFrom first address
        = (words.filter fun word => word.address = address).map ProgramWord.instruction) ∧
    (ofWords words layout).instructionsAt address
      = (words.filter fun word => word.address = address).map ProgramWord.instruction := by
  have sort := stableSort_ofWords words layout
  refine ⟨sort, fun sorted other => other.unique sort, boundary_bisect address sort.ascending, ?_,
    instructionsAt_ofWords words layout address⟩
  intro first found
  rw [instructionsFrom, found.takeWhile_drop sort.ascending, sort.stable]

-- Words in the order in which they were given cannot be looked up: the last jump is missed.
example :
    (Program.mk [⟨5, .jump 0⟩, ⟨2, .jump 1⟩, ⟨5, .jump 2⟩] 0 []).instructionsAt 5 = [.jump 0] := by
  decide

end Program

end PulseSequencer
