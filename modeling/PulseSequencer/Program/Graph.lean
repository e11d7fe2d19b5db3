import PulseSequencer.Element.Equality

/-!
# Program graphs

The control structure of one board's program. Sequences are flattened, runs of timestamps become
blocks, repetitions become loops, and every subroutine is stored once and called wherever it occurs.
Subroutines with equal bodies are the same subroutine. The table of subroutines is searched from the
first one on, which finds what a look-up by hash finds: equal bodies have equal hashes.
-/

namespace PulseSequencer

/-! ## Nodes -/

inductive Node where
  /-- Consecutive timestamps, one address each. -/
  | block (timestamps : List Timestamp)
  /-- A body played `times` times, with the loop counter that it uses. -/
  | loop (times : UInt32) (counter : Nat) (body : List Node)
  /-- A call of the subroutine with this index in the table. -/
  | call (routine : Nat)

namespace Node

/-- The addresses that a loop takes beside its body. -/
def loopOverhead : Nat := 4

/-- The addresses of a call. -/
def callLength : Nat := 3

mutual

/-- The number of addresses that a node occupies. -/
def length : Node → Nat
  | .block timestamps => timestamps.length
  | .loop _ _ body => lengthAll body + loopOverhead
  | .call _ => callLength

def lengthAll : List Node → Nat
  | [] => 0
  | node :: rest => node.length + lengthAll rest

end

def children : Node → List Node
  | .loop _ _ body => body
  | _ => []

/-- Puts a node before others. Two blocks in a row are one block. -/
def cons : Node → List Node → List Node
  | .block first, .block second :: rest => .block (first ++ second) :: rest
  | node, rest => node :: rest

/-- Nodes in a row, every run of blocks joined into one. -/
def joinBlocks (nodes : List Node) : List Node :=
  nodes.foldr cons []

mutual

/-- The subroutines that a node calls, at any depth. -/
def calls : Node → List Nat
  | .block _ => []
  | .loop _ _ body => callsAll body
  | .call routine => [routine]

def callsAll : List Node → List Nat
  | [] => []
  | node :: rest => node.calls ++ callsAll rest

end

end Node

/-! ## Graphs -/

/-- A subroutine: the element it was made from, its nodes and the loop counter that it uses. -/
structure Routine where
  source : Element
  body : List Node
  counter : Nat

/-- The addresses of a subroutine, its closing jump included. -/
def Routine.length (routine : Routine) : Nat :=
  Node.lengthAll routine.body + 1

structure ProgramGraph where
  main : List Node
  routines : List Routine

/-- What the sequencer has no instructions for. -/
inductive Unsupported where
  | trigger
  | parallel

def Unsupported.message : Unsupported → String
  | .trigger => "Waiting for a trigger is not supported by the sequencer"
  | .parallel => "Parallel composition is not supported by the sequencer"

namespace ProgramGraph

mutual

/-- The nodes of an element, blocks not yet joined, and the table of subroutines after it. A
subroutine takes its place in the table before its body is entered. -/
def lower (table : List Routine) :
    Element → Except Unsupported (List Node × List Routine)
  | .timestamp timestamp => .ok ([.block [timestamp]], table)
  | .trigger => .error .trigger
  | .parallel _ => .error .parallel
  | .sequence children => lowerAll table children
  | .repeated body times => do
    let (nodes, table) ← lower table body
    return ([.loop times 0 (Node.joinBlocks nodes)], table)
  | .subroutine body =>
    match table.findIdx? (fun routine => routine.source == body) with
    | some index => .ok ([.call index], table)
    | none => do
      let index := table.length
      let (nodes, table) ← lower (table ++ [⟨body, [], 0⟩]) body
      return ([.call index], table.set index ⟨body, Node.joinBlocks nodes, 0⟩)

def lowerAll (table : List Routine) :
    List Element → Except Unsupported (List Node × List Routine)
  | [] => .ok ([], table)
  | element :: rest => do
    let (first, table) ← lower table element
    let (others, table) ← lowerAll table rest
    return (first ++ others, table)

end

/-- The graph of an element. -/
def ofElement (element : Element) : Except Unsupported ProgramGraph := do
  let (nodes, routines) ← lower [] element
  return ⟨Node.joinBlocks nodes, routines⟩

end ProgramGraph

end PulseSequencer
