import PulseSequencer.Proofs.Program.Nesting
import PulseSequencer.Proofs.Program.Totality

/-!
# Addresses claimed with a stack

The same layout without recursion, down to the addresses of single nodes. The nodes of a row wait on
a stack, each with the address at which it starts, and a loop leaves the nodes of its body there. A
row is compared with a limit as a whole, and after that the last address of each of its nodes is
compared once more, in the body of a subroutine too. The addresses of a node are written to its
place, where the emission reads them.

The second comparison cannot fail where the first one passed, because no node ends after its row and
no body of a loop after the loop. So the addresses are those of the layout, and a body that has room
below the watermark is never refused.

Results:
1. `run_row`: nodes in a row claim the addresses of `Node.placedSpansAll`, whatever else is waiting.
2. `place_of_fits`: a row that ends within the limit is placed, and every node in it has its own
   addresses.
3. `agrees`: all addresses of a graph are those of `ProgramGraph.layout`.
-/

namespace PulseSequencer

/-! ## Nodes without empty blocks -/

namespace Node

mutual

/-- Nodes in which every block has a timestamp, so that every node has an address. -/
def Solid : Node → Prop
  | .block timestamps => timestamps ≠ []
  | .loop _ _ body => SolidAll body
  | .call _ => True

def SolidAll : List Node → Prop
  | [] => True
  | node :: rest => node.Solid ∧ SolidAll rest

end

theorem Solid.length_pos {node : Node} (solid : node.Solid) : 0 < node.length := by
  cases node with
  | block timestamps => exact List.length_pos_iff.mpr solid
  | loop times counter body => exact Nat.succ_pos _
  | call routine => exact Nat.succ_pos _

theorem SolidAll.append {first second : List Node} (solid : SolidAll first)
    (solidSecond : SolidAll second) : SolidAll (first ++ second) := by
  induction first with
  | nil => exact solidSecond
  | cons node rest ih => exact ⟨solid.1, ih solid.2⟩

theorem Solid.cons {node : Node} {rest : List Node} (solid : node.Solid)
    (solidRest : SolidAll rest) : SolidAll (cons node rest) := by
  unfold Node.cons
  split
  · exact ⟨List.append_ne_nil_of_left_ne_nil solid _, solidRest.2⟩
  · exact ⟨solid, solidRest⟩

theorem SolidAll.joinBlocks {nodes : List Node} (solid : SolidAll nodes) :
    SolidAll (joinBlocks nodes) := by
  induction nodes with
  | nil => trivial
  | cons node rest ih => exact solid.1.cons (ih solid.2)

end Node

theorem Counted.solid {sources : List Element} {e : Element} {nodes : List Node}
    (counted : Counted sources e nodes) : Node.SolidAll nodes := by
  induction counted with
  | timestamp t => exact ⟨List.cons_ne_nil t [], trivial⟩
  | nil => trivial
  | cons _ _ ihFirst ihRest => exact ihFirst.append ihRest
  | repeated times _ ih => exact ⟨ih.joinBlocks, trivial⟩
  | subroutine _ _ => exact ⟨trivial, trivial⟩

/-- A graph in which every node has an address. -/
structure ProgramGraph.Solid (graph : ProgramGraph) : Prop where
  main : Node.SolidAll graph.main
  body : ∀ routine ∈ graph.routines, Node.SolidAll routine.body

theorem ProgramGraph.ByHeight.solid {e : Element} {graph : ProgramGraph}
    (byHeight : ByHeight e graph) : graph.Solid := by
  refine ⟨?_, fun routine present => ?_⟩
  · obtain ⟨nodes, counted, main⟩ := byHeight.main
    rw [main]
    exact counted.solid.joinBlocks
  · obtain ⟨nodes, counted, body⟩ := (byHeight.routine routine present).body
    rw [body]
    exact counted.solid.joinBlocks

namespace Placement

/-- The addresses that were written to nodes. -/
abbrev Spans := Place → AddressRange

/-- Every node of a row that starts at `start`, and every node inside of one, has its addresses. -/
def Spans.Hold (spans : Spans) (start : Nat) (nodes : List Node) : Prop :=
  ∀ pair ∈ Node.placedSpansAll [] 0 start nodes, spans pair.1 = pair.2

/-! ## The stack -/

/-- A node that waits for its addresses, and the first of them. -/
structure Pending extends Located where
  start : Nat

/-- Nodes one after the other from `start` on. -/
def row (around : Place) (index start : Nat) : List Node → List Pending
  | [] => []
  | node :: rest =>
    ⟨⟨index :: around, node⟩, start⟩ :: row around (index + 1) (start + node.length) rest

/-- The addresses of a node, which end below `limit`. -/
def Pending.claim (group : String) (region : Region) (limit : Nat) (pending : Pending) :
    Except PassFailure AddressRange :=
  match pending.start + pending.node.length with
  | 0 => .error .outOfBounds
  | last + 1 =>
    if limit ≤ last then .error (.reported (.memoryOverflow group region))
    else if UInt16.size ≤ last then .error .outOfBounds
    else .ok ⟨pending.start, last⟩

/-- The nodes in the body of a loop, which come after the three instructions that set it up. -/
def Pending.inside (pending : Pending) : List Pending :=
  row pending.place 0 (pending.start + 3) pending.node.children

def weight (waiting : List Pending) : Nat :=
  Node.sizeAll (waiting.map fun pending => pending.node)

theorem map_node_row (around : Place) (index start : Nat) (nodes : List Node) :
    (row around index start nodes).map (fun pending => pending.node) = nodes := by
  induction nodes generalizing index start with
  | nil => rfl
  | cons node rest ih => rw [row, List.map_cons, ih]

theorem weight_inside (pending : Pending) (waiting : List Pending) :
    weight (pending.inside.reverse ++ waiting) < weight (pending :: waiting) := by
  rw [weight, weight, List.map_append, List.map_reverse, Pending.inside, map_node_row,
    Node.sizeAll_append, Node.sizeAll_reverse, List.map_cons, Node.sizeAll]
  exact Nat.add_lt_add_right pending.node.sizeAll_children_lt _

/-- Claims addresses until no node waits. The last node of a row lies on top. -/
def run (group : String) (region : Region) (limit : Nat) :
    List Pending → Spans → Except PassFailure Spans
  | [], spans => .ok spans
  | pending :: waiting, spans => do
    let range ← pending.claim group region limit
    run group region limit (pending.inside.reverse ++ waiting) (write spans pending.place range)
termination_by waiting => weight waiting
decreasing_by exact weight_inside pending waiting

/-! ## Rows, subroutines and graphs -/

/-- Places nodes in a row from `start` on. The address after them is `limit` at most. -/
def place (group : String) (region : Region) (start limit : Nat) (nodes : List Node) :
    Except PassFailure Spans :=
  if limit < start + Node.lengthAll nodes then .error (.reported (.memoryOverflow group region))
  else run group region limit (row [] 0 start nodes).reverse fun _ => ⟨0, 0⟩

/-- The ranges of subroutines below `watermark`, the addresses in their bodies, and the lowest
address that is taken. -/
def placeRoutines (group : String) (watermark : Nat) :
    List Routine → Except PassFailure (List AddressRange × List Spans × Nat)
  | [] => .ok ([], [], watermark)
  | routine :: rest =>
    if watermark < routine.length then .error (.reported (.memoryOverflow group .subroutines))
    else do
      let range : AddressRange := ⟨watermark - routine.length, watermark - 1⟩
      let inBody ← place group .subroutines range.first (watermark - 1) routine.body
      let (ranges, inRest, lowest) ← placeRoutines group range.first rest
      return (range :: ranges, inBody :: inRest, lowest)

/-- A layout with the addresses of all nodes. -/
structure Placed where
  layout : Layout
  main : Spans
  routines : List Spans

/-- Places a graph below the address `top`. -/
def layout (graph : ProgramGraph) (group : String) (top : Nat) : Except PassFailure Placed := do
  let (ranges, inRoutines, lowest) ← placeRoutines group top graph.routines
  match lowest with
  | 0 => throw (.reported (.memoryOverflow group .main))
  | limit + 1 =>
    let inMain ← place group .main 0 limit graph.main
    return ⟨⟨Node.lengthAll graph.main, ranges⟩, inMain, inRoutines⟩

/-! ## Nodes -/

section

variable (group : String) (region : Region) {limit : Nat}

theorem claim_of_fits {place : Place} {start : Nat} {node : Node} (solid : node.Solid)
    (fits : start + node.length ≤ limit) (narrow : limit ≤ UInt16.size) :
    Pending.claim group region limit ⟨⟨place, node⟩, start⟩
      = .ok ⟨start, start + node.length - 1⟩ := by
  have positive := solid.length_pos
  unfold Pending.claim
  dsimp only
  split
  · omega
  · next last ends =>
    rw [if_neg (by omega), if_neg (by omega), ends]
    rfl

mutual

/-- A node claims its own addresses and those of all nodes inside of it. -/
theorem run_node (node : Node) (place : Place) (start : Nat) (solid : node.Solid)
    (fits : start + node.length ≤ limit) (narrow : limit ≤ UInt16.size) (waiting : List Pending)
    (spans : Spans) :
    ∃ own, own.Perm (node.placedSpans place start) ∧
      run group region limit (⟨⟨place, node⟩, start⟩ :: waiting) spans
        = run group region limit waiting (writeAll spans own) := by
  rw [run, claim_of_fits group region solid fits narrow, Except.ok_bind]
  match node, solid, fits with
  | .block timestamps, _, _ => exact ⟨[_], .refl _, rfl⟩
  | .call routine, _, _ => exact ⟨[_], .refl _, rfl⟩
  | .loop times counter body, solid, fits =>
    rw [Node.length, Node.loopOverhead] at fits
    obtain ⟨inner, same, ran⟩ := run_row body place 0 (start + 3) solid (by omega) narrow waiting
      (write spans place ⟨start, start + (Node.loop times counter body).length - 1⟩)
    exact ⟨_ :: inner, same.cons _, ran⟩

/-- Nodes in a row claim their addresses, from the last node to the first, whatever else is waiting
below them. -/
theorem run_row (nodes : List Node) (around : Place) (index start : Nat)
    (solid : Node.SolidAll nodes) (fits : start + Node.lengthAll nodes ≤ limit)
    (narrow : limit ≤ UInt16.size) (waiting : List Pending) (spans : Spans) :
    ∃ own, own.Perm (Node.placedSpansAll around index start nodes) ∧
      run group region limit ((row around index start nodes).reverse ++ waiting) spans
        = run group region limit waiting (writeAll spans own) := by
  match nodes, solid, fits with
  | [], _, _ => exact ⟨[], .refl _, rfl⟩
  | node :: rest, solid, fits =>
    rw [Node.lengthAll] at fits
    obtain ⟨later, sameLater, ranLater⟩ := run_row rest around (index + 1) (start + node.length)
      solid.2 (by omega) narrow (⟨⟨index :: around, node⟩, start⟩ :: waiting) spans
    obtain ⟨own, same, ran⟩ := run_node node (index :: around) start solid.1 (by omega) narrow
      waiting (writeAll spans later)
    refine ⟨later ++ own, List.perm_append_comm.trans (same.append sameLater), ?_⟩
    rw [row, List.reverse_cons, List.append_assoc]
    refine ranLater.trans (ran.trans ?_)
    rw [writeAll, writeAll, ← List.foldl_append]
    rfl

end

theorem place_of_fits {start : Nat} {nodes : List Node} (solid : Node.SolidAll nodes)
    (fits : start + Node.lengthAll nodes ≤ limit) (narrow : limit ≤ UInt16.size) :
    ∃ spans, place group region start limit nodes = .ok spans ∧ spans.Hold start nodes := by
  obtain ⟨own, same, ran⟩ := run_row group region nodes [] 0 start solid fits narrow []
    fun _ => ⟨0, 0⟩
  rw [List.append_nil, run] at ran
  -- Different nodes have different places, so the order of the claims does not matter.
  have distinct : (own.map Prod.fst).Nodup := by
    rw [(same.map Prod.fst).nodup_iff, Node.map_fst_placedSpansAll]
    exact Node.nodup_placesAll [] 0 nodes
  refine ⟨_, (if_neg (Nat.not_lt.mpr fits)).trans ran, fun pair present => ?_⟩
  exact writeAll_of_mem distinct (same.mem_iff.mpr present) _

end

/-! ## Agreement with the layout -/

theorem place_body (group : String) {routine : Routine} (solid : Node.SolidAll routine.body)
    {watermark : Nat} (narrow : watermark ≤ maxAddress) (fits : routine.length ≤ watermark) :
    ∃ spans, place group .subroutines (watermark - routine.length) (watermark - 1) routine.body
        = .ok spans ∧
      spans.Hold (watermark - routine.length) routine.body := by
  have small : maxAddress ≤ UInt16.size := by decide
  rw [Routine.length] at fits ⊢
  exact place_of_fits group .subroutines solid (by omega) (by omega)

/-- Every node in the body of a placed subroutine has its addresses. -/
def BodyHolds (placed : Routine × AddressRange) (spans : Spans) : Prop :=
  spans.Hold placed.2.first placed.1.body

/-- Subroutines are refused where the layout refuses them, and placed where it places them. -/
theorem placeRoutines_agrees (group : String) {routines : List Routine} {watermark : Nat}
    (solid : ∀ routine ∈ routines, Node.SolidAll routine.body) (narrow : watermark ≤ maxAddress) :
    (∃ region, ProgramGraph.placeRoutines watermark routines = .error region ∧
      placeRoutines group watermark routines
        = .error (.reported (.memoryOverflow group region))) ∨
    ∃ ranges inRoutines lowest,
      ProgramGraph.placeRoutines watermark routines = .ok (ranges, lowest) ∧
      placeRoutines group watermark routines = .ok (ranges, inRoutines, lowest) ∧
      List.Forall₂ BodyHolds (routines.zip ranges) inRoutines := by
  induction routines generalizing watermark with
  | nil => exact .inr ⟨[], [], watermark, rfl, rfl, .nil⟩
  | cons routine rest ih =>
    obtain ⟨solidBody, solidRest⟩ := List.forall_mem_cons.mp solid
    simp only [ProgramGraph.placeRoutines, placeRoutines]
    by_cases short : watermark < routine.length
    · exact .inl ⟨.subroutines, if_pos short, if_pos short⟩
    obtain ⟨inBody, placed, holds⟩ := place_body group solidBody narrow (Nat.not_lt.mp short)
    rw [if_neg short, if_neg short, placed, Except.ok_bind]
    rcases ih solidRest (show watermark - routine.length ≤ maxAddress by omega) with
      ⟨region, failed, failedHere⟩ | ⟨ranges, inRest, lowest, ok, okHere, holdsRest⟩
    · exact .inl ⟨region, by rw [failed]; rfl, by rw [failedHere]; rfl⟩
    · exact .inr ⟨⟨watermark - routine.length, watermark - 1⟩ :: ranges, inBody :: inRest, lowest,
        by rw [ok]; rfl, by rw [okHere]; rfl, .cons holds holdsRest⟩

/-- Claiming addresses one by one comes to the answer of the layout: it refuses a graph for the
same region, or gives every subroutine and every node the addresses that it has in the layout. No
body that has room below a watermark is refused. -/
structure Agrees (graph : ProgramGraph) (group : String) (top : Nat) : Prop where
  refused : ∀ region, graph.layout top = .error region →
    layout graph group top = .error (.reported (.memoryOverflow group region))
  placed : ∀ result, graph.layout top = .ok result →
    ∃ inMain inRoutines, layout graph group top = .ok ⟨result, inMain, inRoutines⟩ ∧
      inMain.Hold 0 graph.main ∧
      List.Forall₂ BodyHolds (graph.routines.zip result.ranges) inRoutines
  body : ∀ routine ∈ graph.routines, ∀ watermark ≤ maxAddress, routine.length ≤ watermark →
    ∃ spans, place group .subroutines (watermark - routine.length) (watermark - 1) routine.body
      = .ok spans

theorem agrees {graph : ProgramGraph} (solid : graph.Solid) (group : String) {top : Nat}
    (narrow : top ≤ maxAddress) : Agrees graph group top := by
  have small : maxAddress ≤ UInt16.size := by decide
  have body : ∀ routine ∈ graph.routines, ∀ watermark ≤ maxAddress, routine.length ≤ watermark →
      ∃ spans, place group .subroutines (watermark - routine.length) (watermark - 1) routine.body
        = .ok spans := by
    intro routine present watermark below fits
    obtain ⟨spans, placed, _⟩ := place_body group (solid.body routine present) below fits
    exact ⟨spans, placed⟩
  rcases placeRoutines_agrees group solid.body narrow with
    ⟨region, failed, failedHere⟩ | ⟨ranges, inRoutines, lowest, ok, okHere, holdsRoutines⟩
  · have refused : graph.layout top = .error region := by rw [ProgramGraph.layout, failed]; rfl
    refine ⟨fun other isOther => ?_, fun result isResult => ?_, body⟩
    · obtain rfl := Except.error.inj (refused.symm.trans isOther)
      rw [layout, failedHere]
      rfl
    · cases refused.symm.trans isResult
  have lowestLe := (placeRoutines_spec ok).lowest_le
  by_cases below : Node.lengthAll graph.main < lowest
  · have laid : graph.layout top = .ok ⟨Node.lengthAll graph.main, ranges⟩ := by
      rw [ProgramGraph.layout, ok]
      exact if_pos below
    refine ⟨fun region isRegion => ?_, fun result isResult => ?_, body⟩
    · cases laid.symm.trans isRegion
    · obtain rfl := Except.ok.inj (laid.symm.trans isResult)
      obtain ⟨limit, rfl⟩ := Nat.exists_eq_add_one_of_ne_zero (Nat.ne_zero_of_lt below)
      obtain ⟨inMain, placed, holds⟩ := place_of_fits group .main solid.main
        (show 0 + Node.lengthAll graph.main ≤ limit by omega) (by omega)
      refine ⟨inMain, inRoutines, ?_, holds, holdsRoutines⟩
      rw [layout, okHere, Except.ok_bind]
      dsimp only
      rw [placed]
      rfl
  · have refused : graph.layout top = .error .main := by
      rw [ProgramGraph.layout, ok]
      exact if_neg below
    refine ⟨fun region isRegion => ?_, fun result isResult => ?_, body⟩
    · obtain rfl := Except.error.inj (refused.symm.trans isRegion)
      rw [layout, okHere, Except.ok_bind]
      cases lowest with
      | zero => rfl
      | succ limit =>
        dsimp only
        rw [place, if_pos (by omega)]
        rfl
    · cases refused.symm.trans isResult

end Placement

end PulseSequencer
