import PulseSequencer.CompileError
import PulseSequencer.Proofs.Program.DepthFirst

/-!
# Passes with a stack

A pass over the nodes of a graph keeps the nodes that it has still to visit on a stack, and writes
what it finds out into the nodes. A node on the stack is known by its place, the indices that lead
to it, and what was written so far is a function of places.

A pass may come to the nodes in any order. Since no two nodes have the same place, nothing that was
written is lost, and in the end every node holds what was written for it.

Results:
1. `nodup_placesAll`: different nodes of a row have different places.
2. `writeAll_of_mem`: after writes to different places every one of them can be read.
-/

namespace PulseSequencer

/-- How a pass ends without a result. -/
inductive PassFailure where
  /-- An error of the compiler, which is reported. -/
  | reported (error : CompileError)
  /-- An index that a list does not have, or a number that is too wide for where it is stored. -/
  | outOfBounds

/-! ## Places -/

/-- Where a node stands: its index in its row, then the indices of the loops around it, from the
inside out. -/
abbrev Place := List Nat

structure Located where
  place : Place
  node : Node

namespace Node

/-- Nodes in a row, from an index of the body at the place `around` on. -/
def locate (around : Place) (index : Nat) : List Node → List Located
  | [] => []
  | node :: rest => ⟨index :: around, node⟩ :: locate around (index + 1) rest

theorem map_node_locate (around : Place) (index : Nat) (nodes : List Node) :
    (locate around index nodes).map Located.node = nodes := by
  induction nodes generalizing index with
  | nil => rfl
  | cons node rest ih => rw [locate, List.map_cons, ih]

mutual

/-- The places of a node and of all nodes inside of it. -/
def places (place : Place) : Node → List Place
  | .block _ => [place]
  | .loop _ _ body => place :: placesAll place 0 body
  | .call _ => [place]

def placesAll (around : Place) (index : Nat) : List Node → List Place
  | [] => []
  | node :: rest => node.places (index :: around) ++ placesAll around (index + 1) rest

end

theorem sizeAll_children_lt (node : Node) : sizeAll node.children < node.size := by
  cases node <;> simp [children, size, sizeAll]

mutual

theorem suffix_of_mem_places {place inner : Place} {node : Node}
    (inside : inner ∈ node.places place) : place <:+ inner := by
  match node, inside with
  | .block timestamps, inside => exact List.mem_singleton.mp inside ▸ List.suffix_rfl
  | .call routine, inside => exact List.mem_singleton.mp inside ▸ List.suffix_rfl
  | .loop times counter body, inside =>
    rcases List.mem_cons.mp inside with rfl | deeper
    · exact List.suffix_rfl
    · obtain ⟨index, _, below⟩ := suffix_of_mem_placesAll deeper
      exact (List.suffix_cons index place).trans below

theorem suffix_of_mem_placesAll {around inner : Place} {first : Nat} {nodes : List Node}
    (inside : inner ∈ placesAll around first nodes) :
    ∃ index, first ≤ index ∧ (index :: around) <:+ inner := by
  match nodes, inside with
  | node :: rest, inside =>
    rcases List.mem_append.mp inside with inFirst | inRest
    · exact ⟨first, le_rfl, suffix_of_mem_places inFirst⟩
    · obtain ⟨index, later, below⟩ := suffix_of_mem_placesAll inRest
      exact ⟨index, Nat.le_of_succ_le later, below⟩

end

/-- The index in a row is settled by any place inside of the node. -/
theorem index_eq_of_suffix {around inner : Place} {i j : Nat} (first : (i :: around) <:+ inner)
    (second : (j :: around) <:+ inner) : i = j := by
  have nested := List.suffix_of_suffix_length_le first second (by simp)
  exact (List.cons.inj (nested.eq_of_length (by simp))).1

mutual

theorem nodup_places (place : Place) (node : Node) : (node.places place).Nodup := by
  match node with
  | .block timestamps => exact List.nodup_singleton place
  | .call routine => exact List.nodup_singleton place
  | .loop times counter body =>
    refine List.nodup_cons.mpr ⟨fun inside => ?_, nodup_placesAll place 0 body⟩
    obtain ⟨index, _, below⟩ := suffix_of_mem_placesAll inside
    exact absurd below.length_le (Nat.not_succ_le_self _)

theorem nodup_placesAll (around : Place) (first : Nat) (nodes : List Node) :
    (placesAll around first nodes).Nodup := by
  match nodes with
  | [] => exact List.nodup_nil
  | node :: rest =>
    refine List.nodup_append.mpr
      ⟨nodup_places _ node, nodup_placesAll around (first + 1) rest, ?_⟩
    rintro inner inFirst _ inRest rfl
    obtain ⟨index, later, below⟩ := suffix_of_mem_placesAll inRest
    have same := index_eq_of_suffix (suffix_of_mem_places inFirst) below
    omega

end

end Node

/-- The nodes in the body of a loop. Other nodes have none. -/
def Located.inside (located : Located) : List Located :=
  Node.locate located.place 0 located.node.children

theorem Located.sizeAll_inside (located : Located) (waiting : List Located) :
    Node.sizeAll ((located.inside ++ waiting).map Located.node)
      < Node.sizeAll ((located :: waiting).map Located.node) := by
  rw [List.map_append, inside, Node.map_node_locate, Node.sizeAll_append, List.map_cons,
    Node.sizeAll]
  exact Nat.add_lt_add_right located.node.sizeAll_children_lt _

/-! ## Writes -/

section

variable {α : Type}

def write (written : Place → α) (place : Place) (value : α) : Place → α :=
  fun other => if other = place then value else written other

def writeAll (written : Place → α) (writes : List (Place × α)) : Place → α :=
  writes.foldl (fun written (place, value) => write written place value) written

theorem writeAll_of_notMem {writes : List (Place × α)} {place : Place}
    (untouched : place ∉ writes.map Prod.fst) (written : Place → α) :
    writeAll written writes place = written place := by
  induction writes generalizing written with
  | nil => rfl
  | cons first rest ih =>
    obtain ⟨other, untouchedRest⟩ := not_or.mp (mt List.mem_cons.mpr untouched)
    rw [writeAll, List.foldl_cons]
    exact (ih untouchedRest _).trans (if_neg other)

/-- What was written to a place can be read there, if no place was written twice. -/
theorem writeAll_of_mem {writes : List (Place × α)} (distinct : (writes.map Prod.fst).Nodup)
    {place : Place} {value : α} (present : (place, value) ∈ writes) (written : Place → α) :
    writeAll written writes place = value := by
  induction writes generalizing written with
  | nil => cases present
  | cons first rest ih =>
    obtain ⟨other, distinctRest⟩ := List.nodup_cons.mp distinct
    rw [writeAll, List.foldl_cons]
    rcases List.mem_cons.mp present with rfl | inRest
    · exact (writeAll_of_notMem other _).trans (if_pos rfl)
    · exact ih distinctRest inRest _

end

end PulseSequencer
