import PulseSequencer.Proofs.Program.Counters
import PulseSequencer.Proofs.Program.Lowering
import PulseSequencer.Proofs.Program.Memory
import PulseSequencer.Proofs.Update

/-!
# Unrolled elements and nodes

The output words of an element with every repetition written out, and the same for the nodes of a
program graph.

Results:
1. `Element.Alike.unrolled_eq`: equal elements unroll to the same words, which is why they may
   share a subroutine.
2. `Lowered.unrolled`: the nodes of an element unroll to the words of the element.
3. `Unrolled.of_bareAll`: loop counters and the joining of blocks play no part in it.
-/

namespace PulseSequencer

/-! ## Elements -/

namespace Element

mutual

/-- The output words of an element on the board of output `rf`. There are none for trigger waits and
for elements side by side, nor if a timestamp has no word. -/
def unrolled (rf : Nat) : Element → Option (List OutputWord)
  | .timestamp t => (OutputWord.ofTimestamp t rf).toOption.map fun word => [word]
  | .trigger => none
  | .sequence children => unrolledAll rf children
  | .parallel _ => none
  | .repeated body times =>
    (unrolled rf body).map fun words => (List.replicate times.toNat words).flatten
  | .subroutine body => unrolled rf body

def unrolledAll (rf : Nat) : List Element → Option (List OutputWord)
  | [] => some []
  | element :: rest => do return (← unrolled rf element) ++ (← unrolledAll rf rest)

end

theorem Alike.unrolled_eq (rf : Nat) {a b : Element} (alike : Alike a b) :
    a.unrolled rf = b.unrolled rf := by
  induction alike with
  | timestamp equal => rw [unrolled, unrolled, OutputWord.ofTimestamp_congr equal]
  | trigger => rfl
  | emptySequence => rfl
  | emptyParallel => rfl
  | sequence _ _ ihFirst ihRest =>
    simp only [unrolled] at ihRest
    simp only [unrolled, unrolledAll, ihFirst, ihRest]
  | parallel _ _ _ _ => rfl
  | repeated times _ ih => rw [unrolled, unrolled, ih]
  | subroutine _ _ ih => rw [unrolled, unrolled, ih]

/-- What stands for a body unrolls to the same words. -/
theorem StandsFor.unrolled_eq {source body : Element} (same : source.StandsFor body) (rf : Nat) :
    source.unrolled rf = body.unrolled rf :=
  same.congr (Alike.unrolled_eq rf)

end Element

/-! ## Nodes -/

/-- `Unrolled rf routines nodes words`: the output words of nodes in a row, every loop and every
call of the subroutines written out. -/
inductive Unrolled (rf : Nat) (routines : List Routine) : List Node → List OutputWord → Prop
  | nil : Unrolled rf routines [] []
  | empty {rest : List Node} {words : List OutputWord} :
      Unrolled rf routines rest words → Unrolled rf routines (.block [] :: rest) words
  | timestamp {t : Timestamp} {ts : List Timestamp} {rest : List Node} {word : OutputWord}
      {words : List OutputWord} :
      OutputWord.ofTimestamp t rf = .ok word → Unrolled rf routines (.block ts :: rest) words →
      Unrolled rf routines (.block (t :: ts) :: rest) (word :: words)
  | loop {times : UInt32} {counter : Nat} {body rest : List Node}
      {inner words : List OutputWord} :
      Unrolled rf routines body inner → Unrolled rf routines rest words →
      Unrolled rf routines (.loop times counter body :: rest)
        ((List.replicate times.toNat inner).flatten ++ words)
  | call {index : Nat} {routine : Routine} {rest : List Node} {inner words : List OutputWord} :
      routines[index]? = some routine → Unrolled rf routines routine.body inner →
      Unrolled rf routines rest words →
      Unrolled rf routines (.call index :: rest) (inner ++ words)

/-- Nodes that differ in their counters only come one for one. -/
theorem Node.bareAll_eq_cons {node : Node} {rest nodes : List Node}
    (same : bareAll nodes = bareAll (node :: rest)) :
    ∃ node' rest', nodes = node' :: rest' ∧ node'.bare = node.bare ∧
      bareAll rest' = bareAll rest := by
  cases nodes with
  | nil => cases same
  | cons node' rest' =>
    obtain ⟨sameNode, sameRest⟩ := List.cons.inj same
    exact ⟨node', rest', rfl, sameNode, sameRest⟩

namespace Unrolled

variable {rf : Nat} {routines : List Routine} {nodes : List Node} {words : List OutputWord}

theorem append {second : List Node} {others : List OutputWord}
    (unrolled : Unrolled rf routines nodes words)
    (unrolledSecond : Unrolled rf routines second others) :
    Unrolled rf routines (nodes ++ second) (words ++ others) := by
  induction unrolled with
  | nil => exact unrolledSecond
  | empty _ ih => exact .empty ih
  | timestamp found _ ih => exact .timestamp found ih
  | loop body _ _ ih =>
    rw [List.append_assoc]
    exact .loop body ih
  | call found body _ _ ih =>
    rw [List.append_assoc]
    exact .call found body ih

theorem cons_empty (unrolled : Unrolled rf routines nodes words) :
    Unrolled rf routines (Node.cons (.block []) nodes) words := by
  cases nodes with
  | nil => exact .empty unrolled
  | cons node rest =>
    cases node with
    | block timestamps => exact unrolled
    | loop times counter body => exact .empty unrolled
    | call index => exact .empty unrolled

theorem cons_timestamp {t : Timestamp} {ts : List Timestamp} {word : OutputWord}
    (found : OutputWord.ofTimestamp t rf = .ok word)
    (unrolled : Unrolled rf routines (Node.cons (.block ts) nodes) words) :
    Unrolled rf routines (Node.cons (.block (t :: ts)) nodes) (word :: words) := by
  cases nodes with
  | nil => exact .timestamp found unrolled
  | cons node rest => cases node <;> exact .timestamp found unrolled

/-- Joining blocks keeps the words. -/
theorem joinBlocks (unrolled : Unrolled rf routines nodes words) :
    Unrolled rf routines (Node.joinBlocks nodes) words := by
  induction unrolled with
  | nil => exact .nil
  | empty _ ih => exact ih.cons_empty
  | timestamp found _ ih => exact .cons_timestamp found ih
  | loop body _ _ ih => exact .loop body ih
  | call found body _ _ ih => exact .call found body ih

/-- Loop counters play no part in the words of nodes and subroutines. -/
theorem of_bareAll {routines' : List Routine} (unrolled : Unrolled rf routines nodes words)
    (bodies : ∀ (index : Nat) (routine : Routine), routines[index]? = some routine →
      ∃ routine', routines'[index]? = some routine' ∧
        Node.bareAll routine'.body = Node.bareAll routine.body)
    {nodes' : List Node} (same : Node.bareAll nodes' = Node.bareAll nodes) :
    Unrolled rf routines' nodes' words := by
  induction unrolled generalizing nodes' with
  | nil =>
    cases nodes' with
    | nil => exact .nil
    | cons node rest => cases same
  | empty _ ih =>
    obtain ⟨node, rest, rfl, sameNode, sameRest⟩ := Node.bareAll_eq_cons same
    cases node <;> simp [Node.bare] at sameNode
    subst sameNode
    exact .empty (ih sameRest)
  | @timestamp t ts others word words found _ ih =>
    obtain ⟨node, rest, rfl, sameNode, sameRest⟩ := Node.bareAll_eq_cons same
    cases node <;> simp [Node.bare] at sameNode
    subst sameNode
    have sameBlock : Node.bareAll (.block ts :: rest) = Node.bareAll (.block ts :: others) := by
      rw [Node.bareAll, Node.bareAll, sameRest]
    exact .timestamp found (ih sameBlock)
  | loop _ _ ihBody ihRest =>
    obtain ⟨node, rest, rfl, sameNode, sameRest⟩ := Node.bareAll_eq_cons same
    cases node <;> simp [Node.bare] at sameNode
    obtain ⟨rfl, sameBody⟩ := sameNode
    exact .loop (ihBody sameBody) (ihRest sameRest)
  | call found _ _ ihBody ihRest =>
    obtain ⟨node, rest, rfl, sameNode, sameRest⟩ := Node.bareAll_eq_cons same
    cases node <;> simp [Node.bare] at sameNode
    subst sameNode
    obtain ⟨routine', found', sameBody⟩ := bodies _ _ found
    exact .call found' (ihBody sameBody) (ihRest sameRest)

end Unrolled

/-! ## Words of timestamps -/

/-- All of the timestamps have output words. -/
def HaveWords (rf : Nat) (timestamps : List Timestamp) : Prop :=
  ∀ t ∈ timestamps, ∃ word, OutputWord.ofTimestamp t rf = .ok word

namespace Node

mutual

theorem timestamps_bare (node : Node) : node.bare.timestamps = node.timestamps := by
  cases node with
  | block timestamps => rfl
  | loop times counter body =>
    rw [bare, timestamps, timestamps]
    exact timestampsAll_bareAll body
  | call routine => rfl

theorem timestampsAll_bareAll (nodes : List Node) :
    timestampsAll (bareAll nodes) = timestampsAll nodes := by
  cases nodes with
  | nil => rfl
  | cons node rest =>
    rw [bareAll, timestampsAll, timestampsAll, timestamps_bare node, timestampsAll_bareAll rest]

end

end Node

namespace Emission

theorem haveWords_block {board : Board} {start : Nat} {timestamps : List Timestamp}
    {emission : Emission} (ok : block board start timestamps = .ok emission) :
    HaveWords board.rf timestamps := by
  induction timestamps generalizing start emission with
  | nil => simp [HaveWords]
  | cons t rest ih =>
    obtain ⟨word, others, found, foundRest, _⟩ := block_cons_eq_ok ok
    intro other present
    rcases List.mem_cons.mp present with rfl | later
    · exact ⟨word, found⟩
    · exact ih foundRest other later

mutual

theorem haveWords_node {board : Board} {start : Nat} {n : Node} {emission : Emission}
    (ok : node board start n = .ok emission) : HaveWords board.rf n.timestamps := by
  match n, ok with
  | .block timestamps, ok => exact haveWords_block ok
  | .loop times counter body, ok =>
    obtain ⟨control, inner, _, foundInner, _⟩ := node_loop_eq_ok ok
    exact haveWords_nodes foundInner
  | .call index, _ => simp [HaveWords, Node.timestamps]

/-- Emitted timestamps have words. -/
theorem haveWords_nodes {board : Board} {start : Nat} {ns : List Node} {emission : Emission}
    (ok : nodes board start ns = .ok emission) : HaveWords board.rf (Node.timestampsAll ns) := by
  match ns, ok with
  | [], _ => simp [HaveWords, Node.timestampsAll]
  | first :: rest, ok =>
    obtain ⟨head, others, foundHead, foundRest, _⟩ := nodes_cons_eq_ok ok
    intro t present
    rw [Node.timestampsAll, List.mem_append] at present
    rcases present with inFirst | inRest
    · exact haveWords_node foundHead t inFirst
    · exact haveWords_nodes foundRest t inRest

end

end Emission

/-- The nodes of an element unroll to the words of the element, as long as all timestamps have
words. The induction is on the size of the element, which decreases into a subroutine. -/
theorem Lowered.unrolled {rf : Nat} {routines : List Routine}
    (filled : ∀ routine ∈ routines, routine.Filled (routines.map Routine.source))
    (bodies : ∀ routine ∈ routines, HaveWords rf (Node.timestampsAll routine.body)) :
    ∀ {bound : Nat} {e : Element} {nodes : List Node}, e.size ≤ bound →
      Lowered (routines.map Routine.source) e nodes → HaveWords rf (Node.timestampsAll nodes) →
      ∃ words, e.unrolled rf = some words ∧ Unrolled rf routines nodes words := by
  intro bound
  induction bound with
  | zero =>
    intro e nodes small
    cases e <;> simp [Element.size] at small
  | succ bound ih =>
    intro e nodes small lowered haveWords
    cases lowered with
    | timestamp t =>
      obtain ⟨word, found⟩ := haveWords t (by simp [Node.timestampsAll, Node.timestamps])
      exact ⟨[word], by rw [Element.unrolled, found]; rfl, .timestamp found (.empty .nil)⟩
    | nil => exact ⟨[], rfl, .nil⟩
    | @cons e es first rest loweredFirst loweredRest =>
      simp only [Node.timestampsAll_append, HaveWords, List.mem_append] at haveWords
      simp only [Element.size, Element.sizeAll] at small
      have positive : 0 < e.size := by cases e <;> simp [Element.size]
      obtain ⟨words, found, unrolled⟩ :=
        ih (by omega) loweredFirst fun t present => haveWords t (.inl present)
      obtain ⟨others, foundRest, unrolledRest⟩ :=
        ih (by simp only [Element.size]; omega) loweredRest
          fun t present => haveWords t (.inr present)
      rw [Element.unrolled] at foundRest
      refine ⟨words ++ others, ?_, unrolled.append unrolledRest⟩
      rw [Element.unrolled, Element.unrolledAll, found, foundRest]
      rfl
    | @repeated body inner times loweredBody =>
      simp only [Node.timestampsAll, Node.timestamps, Node.timestampsAll_joinBlocks,
        List.append_nil] at haveWords
      simp only [Element.size] at small
      obtain ⟨words, found, unrolled⟩ := ih (by omega) loweredBody haveWords
      refine ⟨(List.replicate times.toNat words).flatten, ?_, ?_⟩
      · rw [Element.unrolled, found]
        rfl
      · rw [← List.append_nil (List.flatten _)]
        exact .loop unrolled.joinBlocks .nil
    | @subroutine source body index found same =>
      simp only [Element.size] at small
      obtain ⟨routine, foundRoutine, rfl⟩ := by
        rw [List.getElem?_map, Option.map_eq_some_iff] at found
        exact found
      have present := List.mem_of_getElem? foundRoutine
      obtain ⟨inner, loweredBody, sameBody⟩ := (filled routine present).body
      -- The element equals the source of the subroutine, but need not be it.
      have words := bodies routine present
      rw [sameBody, Node.timestampsAll_joinBlocks] at words
      obtain ⟨words, found, unrolled⟩ := ih (by rw [same.size_eq]; omega) loweredBody words
      refine ⟨words, by rw [Element.unrolled, ← same.unrolled_eq, found], ?_⟩
      rw [← List.append_nil words]
      refine .call foundRoutine ?_ .nil
      rw [sameBody]
      exact unrolled.joinBlocks

end PulseSequencer
