import PulseSequencer.Element.Equality
import PulseSequencer.Element.Projection

/-!
# Elements in memory

The children of an element are stored once and referred to by their addresses, and copies of an
element share them. Two references to one address are equal without a look at what is stored there.
Only for different addresses the stored elements are compared, each with the durations, channels and
trigger flags that are kept with it.

Every step that makes a new element puts its children at new addresses. Copies, and products of trip
counts, refer to the old ones.
-/

namespace PulseSequencer

/-- An element with the addresses of everything in it. The address of an element that is no child of
another one does not matter. -/
inductive Object where
  | timestamp (address : Nat) (timestamp : Timestamp)
  | trigger (address : Nat)
  | sequence (address : Nat) (children : List Object)
  | parallel (address : Nat) (children : List Object)
  | repeated (address : Nat) (body : Object) (times : UInt32)
  | subroutine (address : Nat) (body : Object)

namespace Object

instance : Inhabited Object := ⟨.trigger 0⟩

def address : Object → Nat
  | .timestamp address _ => address
  | .trigger address => address
  | .sequence address _ => address
  | .parallel address _ => address
  | .repeated address _ _ => address
  | .subroutine address _ => address

mutual

/-- The element without its addresses. -/
def element : Object → Element
  | .timestamp _ t => .timestamp t
  | .trigger _ => .trigger
  | .sequence _ children => .sequence (elements children)
  | .parallel _ children => .parallel (elements children)
  | .repeated _ body times => .repeated body.element times
  | .subroutine _ body => .subroutine body.element

def elements : List Object → List Element
  | [] => []
  | object :: rest => object.element :: elements rest

end

/-! ## Equality -/

/-- What is kept with elements in a row or side by side is the same. -/
def sameSummary (a b : Element) : Bool :=
  a.duration == b.duration && a.channels == b.channels && a.hasTrigger == b.hasTrigger

mutual

/-- Compares what is stored in two objects. -/
def equal : Object → Object → Bool
  | .timestamp _ s, .timestamp _ t => s == t
  | .trigger _, .trigger _ => true
  | .sequence _ as, .sequence _ bs =>
    equalAll as bs && sameSummary (.sequence (elements as)) (.sequence (elements bs))
  | .parallel _ as, .parallel _ bs =>
    equalAll as bs && sameSummary (.parallel (elements as)) (.parallel (elements bs))
  | .repeated _ a m, .repeated _ b n =>
    (a.address == b.address || equal a b) && m == n
      && (Element.repeated a.element m).duration == (Element.repeated b.element n).duration
  | .subroutine _ a, .subroutine _ b => a.address == b.address || equal a b
  | _, _ => false

/-- Compares references one by one. -/
def equalAll : List Object → List Object → Bool
  | [], [] => true
  | a :: as, b :: bs => (a.address == b.address || equal a b) && equalAll as bs
  | _, _ => false

end

/-! ## New objects -/

/-- The same contents at another address. -/
def moveTo (address : Nat) : Object → Object
  | .timestamp _ t => .timestamp address t
  | .trigger _ => .trigger address
  | .sequence _ children => .sequence address children
  | .parallel _ children => .parallel address children
  | .repeated _ body times => .repeated address body times
  | .subroutine _ body => .subroutine address body

/-- Objects at consecutive addresses from `free` on. -/
def row (free : Nat) : List Object → List Object
  | [] => []
  | object :: rest => object.moveTo free :: row (free + 1) rest

/-- A repetition with its trip count multiplied, if the product fits 32 bits. The body is shared. -/
def multiply? (times : UInt32) : Object → Option Object
  | .repeated _ body inner =>
    if inner.toNat * times.toNat < 1 <<< 32 then some (.repeated 0 body (inner * times)) else none
  | _ => none

mutual

/-- An element with everything in it at new addresses from `free` on, and the first address after
it. -/
def store (free : Nat) : Element → Object × Nat
  | .timestamp t => (.timestamp free t, free + 1)
  | .trigger => (.trigger free, free + 1)
  | .sequence children =>
    let (objects, next) := storeAll (free + 1) children
    (.sequence free objects, next)
  | .parallel children =>
    let (objects, next) := storeAll (free + 1) children
    (.parallel free objects, next)
  | .repeated body times =>
    let (object, next) := store (free + 1) body
    (.repeated free object times, next)
  | .subroutine body =>
    let (object, next) := store (free + 1) body
    (.subroutine free object, next)

def storeAll (free : Nat) : List Element → List Object × Nat
  | [] => ([], free)
  | element :: rest =>
    let (object, middle) := store free element
    let (objects, next) := storeAll middle rest
    (object :: objects, next)

end

end Object

/-! ## Making elements step by step -/

/-- The elements that were made, the last one first, and the first address that is free. -/
structure Workspace where
  objects : List Object
  free : Nat

/-- A step that makes an element out of the last ones. -/
inductive Construction where
  | timestamp (timestamp : Timestamp)
  | trigger
  | sequence (count : Nat)
  | parallel (count : Nat)
  | repeated (times : UInt32)
  /-- Multiplies the trip count of a repetition, and repeats any other element. -/
  | product (times : UInt32)
  | subroutine
  | project (group : ChannelSet)
  | copy
  | swap
  | drop

inductive ConstructionError where
  | tooFew
  | sequence (error : SequenceError)

namespace Construction

/-- The last `count` of several things, the oldest first, and the others. -/
def take {α : Type} (made : List α) (count : Nat) : Except ConstructionError (List α × List α) :=
  if made.length < count then .error .tooFew
  else .ok ((made.take count).reverse, made.drop count)

def pop {α : Type} : List α → Except ConstructionError (α × List α)
  | [] => .error .tooFew
  | top :: rest => .ok (top, rest)

end Construction

namespace Workspace

open Construction (take pop)

def empty : Workspace := ⟨[], 0⟩

/-- The last object as the body of a repetition, at a new address. -/
def repeatTop (workspace : Workspace) (top : Object) (rest : List Object) (times : UInt32) :
    Workspace :=
  ⟨.repeated 0 (top.moveTo workspace.free) times :: rest, workspace.free + 1⟩

def perform (workspace : Workspace) : Construction → Except ConstructionError Workspace
  | .timestamp t => .ok { workspace with objects := .timestamp 0 t :: workspace.objects }
  | .trigger => .ok { workspace with objects := .trigger 0 :: workspace.objects }
  | .sequence count => do
    let (children, rest) ← take workspace.objects count
    let children := Object.row workspace.free children
    return ⟨.sequence 0 children :: rest, workspace.free + children.length⟩
  | .parallel count => do
    let (children, rest) ← take workspace.objects count
    let _ ← (Element.sideBySide (Object.elements children)).mapError .sequence
    let children := Object.row workspace.free children
    return ⟨.parallel 0 children :: rest, workspace.free + children.length⟩
  | .repeated times => do
    let (top, rest) ← pop workspace.objects
    return workspace.repeatTop top rest times
  | .product times => do
    let (top, rest) ← pop workspace.objects
    match top.multiply? times with
    | some product => return { workspace with objects := product :: rest }
    | none => return workspace.repeatTop top rest times
  | .subroutine => do
    let (top, rest) ← pop workspace.objects
    return ⟨.subroutine 0 (top.moveTo workspace.free) :: rest, workspace.free + 1⟩
  | .project group => do
    let (top, rest) ← pop workspace.objects
    let projected ← (top.element.project group).mapError .sequence
    let (object, next) := Object.store workspace.free projected
    return ⟨object :: rest, next⟩
  | .copy => do
    let (top, _) ← pop workspace.objects
    return { workspace with objects := top :: workspace.objects }
  | .swap => do
    let (lastTwo, rest) ← take workspace.objects 2
    return { workspace with objects := lastTwo ++ rest }
  | .drop => do
    let (_, rest) ← pop workspace.objects
    return { workspace with objects := rest }

/-- Makes elements one after the other. -/
def run (workspace : Workspace) (constructions : List Construction) :
    Except ConstructionError Workspace :=
  constructions.foldlM perform workspace

end Workspace

end PulseSequencer
