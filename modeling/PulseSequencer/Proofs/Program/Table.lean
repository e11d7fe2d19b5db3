import PulseSequencer.Proofs.Element.Hashing
import PulseSequencer.Proofs.Element.Workspace
import PulseSequencer.Proofs.Program.Lowering

/-!
# The subroutine table as a hash table

Subroutines are kept in a table with their elements as keys, and a key is found by its hash and then
by comparing it to the keys with the same hash, in any order. The keys refer to their bodies by
address. For a projection all of this is the search from the first subroutine to the last one that
`ProgramGraph.lower` makes: equal keys have equal hashes, no two keys in the table are equal, and no
two parts of an element that is stored anew have one address.

Results:
1. `Lookup.find_eq`: a look-up finds what the search from the first key on finds.
2. `HashTable.lower_agrees`: lowering an element in memory.
3. `HashTable.ofObject_eq`: the graph of an element that is stored anew.
-/

namespace PulseSequencer

/-- A look-up in a hash table, by any hash function and in any order. Keys with another hash may be
passed over. -/
structure Lookup where
  hash : List HashInput → UInt64
  find : List Object → Object → Option Nat
  found {keys : List Object} {key : Object} {index : Nat} (ok : find keys key = some index) :
    ∃ entry, keys[index]? = some entry ∧ key.equal entry = true
  missed {keys : List Object} {key : Object} (ok : find keys key = none) :
    ∀ entry ∈ keys, hash key.element.hashed = hash entry.element.hashed → key.equal entry = false

/-- For every hash function there is such a look-up, which tries the keys one after the other. -/
def Lookup.inOrder (hash : List HashInput → UInt64) : Lookup where
  hash := hash
  find keys key := keys.findIdx? fun entry =>
    hash key.element.hashed == hash entry.element.hashed && key.equal entry
  found ok := by
    obtain ⟨inside, matched, _⟩ := List.findIdx?_eq_some_iff_getElem.mp ok
    exact ⟨_, List.getElem?_eq_getElem inside, (Bool.and_eq_true_iff.mp matched).2⟩
  missed ok entry present sameHash := by
    have unmatched := List.findIdx?_eq_none_iff.mp ok entry present
    rw [beq_of_eq sameHash, Bool.true_and] at unmatched
    exact unmatched

/-- Subroutines with their keys, in the order in which they were found. -/
structure HashTable where
  keys : List Object
  routines : List Routine

namespace HashTable

def empty : HashTable := ⟨[], []⟩

/-- A new subroutine, whose nodes are not known yet. -/
def push (table : HashTable) (key : Object) (body : Element) : HashTable :=
  ⟨table.keys ++ [key], table.routines ++ [⟨body, [], 0⟩]⟩

theorem routines_empty : empty.routines = [] := rfl

theorem routines_push (table : HashTable) (key : Object) (body : Element) :
    (table.push key body).routines = table.routines ++ [⟨body, [], 0⟩] := rfl

mutual

/-- The nodes of an element in memory, blocks not yet joined, and the table after it. -/
def lower (lookup : Lookup) (table : HashTable) :
    Object → Except Unsupported (List Node × HashTable)
  | .timestamp _ t => .ok ([.block [t]], table)
  | .trigger _ => .error .trigger
  | .parallel _ _ => .error .parallel
  | .sequence _ children => lowerAll lookup table children
  | .repeated _ body times => do
    let (nodes, table) ← lower lookup table body
    return ([.loop times 0 (Node.joinBlocks nodes)], table)
  | .subroutine address body =>
    match lookup.find table.keys (.subroutine address body) with
    | some index => .ok ([.call index], table)
    | none => do
      let index := table.routines.length
      let (nodes, table) ← lower lookup (table.push (.subroutine address body) body.element) body
      let routine := ⟨body.element, Node.joinBlocks nodes, 0⟩
      return ([.call index], { table with routines := table.routines.set index routine })

def lowerAll (lookup : Lookup) (table : HashTable) :
    List Object → Except Unsupported (List Node × HashTable)
  | [] => .ok ([], table)
  | object :: rest => do
    let (first, table) ← lower lookup table object
    let (others, table) ← lowerAll lookup table rest
    return (first ++ others, table)

end

/-- The graph of an element in memory. -/
def ofObject (lookup : Lookup) (object : Object) : Except Unsupported ProgramGraph := do
  let (nodes, table) ← lower lookup empty object
  return ⟨Node.joinBlocks nodes, table.routines⟩

/-! ## Look-ups -/

/-- A table that was made from parts of `root`: no two of its keys are equal, and its subroutines
have the keys' bodies. -/
structure Made (root : Object) (table : HashTable) : Prop where
  inside : ∀ key ∈ table.keys, key ∈ root :: root.inner
  distinct : table.keys.Pairwise fun first later => (first.element == later.element) = false
  sources : table.keys.map Object.element
    = table.routines.map fun routine => .subroutine routine.source

variable {root : Object} {table : HashTable}

/-- The search from the first subroutine on, as a search for the key. -/
theorem Made.findIdx?_eq (made : table.Made root) (body : Element) :
    table.routines.findIdx? (fun routine => routine.source == body)
      = table.keys.findIdx? fun entry => entry.element == .subroutine body := by
  have keys := congrArg (List.findIdx? (· == .subroutine body)) made.sources
  rw [List.findIdx?_map, List.findIdx?_map] at keys
  exact keys.symm

end HashTable

open HashTable in
/-- A key that is not in the table yet is found where the search from the first subroutine on finds
it. -/
theorem Lookup.find_eq (lookup : Lookup) {root body : Object} {table : HashTable} {address : Nat}
    (separate : ((root :: root.inner).map Object.address).Nodup) (made : table.Made root)
    (inside : .subroutine address body ∈ root :: root.inner)
    (new : ∀ key ∈ table.keys, address ≠ key.address) :
    lookup.find table.keys (.subroutine address body)
      = table.routines.findIdx? fun routine => routine.source == body.element := by
  rw [made.findIdx?_eq]
  -- The addresses do not decide, since those of the key are new.
  have compared : ∀ key ∈ table.keys,
      (Object.subroutine address body).equal key = (key.element == .subroutine body.element) := by
    intro key present
    rw [Object.equal_eq_beq separate inside (made.inside key present) (new key present)]
    exact Bool.eq_iff_iff.mpr ⟨Element.beq_symm, Element.beq_symm⟩
  cases result : lookup.find table.keys (.subroutine address body) with
  | none =>
    refine (List.findIdx?_eq_none_iff.mpr fun key present => ?_).symm
    rw [← compared key present, Bool.eq_false_iff]
    intro equals
    have alike := Element.hashed_eq ((compared key present).symm.trans equals)
    exact Bool.eq_false_iff.mp
      (lookup.missed result key present (congrArg lookup.hash alike.symm)) equals
  | some index =>
    obtain ⟨key, atIndex, equals⟩ := lookup.found result
    obtain ⟨isKey, rfl⟩ := List.getElem?_eq_some_iff.mp atIndex
    rw [compared _ (List.getElem_mem isKey)] at equals
    refine (List.findIdx?_eq_some_iff_getElem.mpr ⟨isKey, equals, fun earlier before => ?_⟩).symm
    intro equalsEarlier
    have different := List.pairwise_iff_getElem.mp made.distinct earlier index
      (before.trans isKey) isKey before
    exact Bool.eq_false_iff.mp different (Element.beq_trans equalsEarlier (Element.beq_symm equals))

namespace HashTable

variable {root : Object} {table : HashTable}

theorem Made.push (made : table.Made root) {address : Nat} {body : Object}
    (inside : .subroutine address body ∈ root :: root.inner)
    (absent : table.routines.findIdx? (fun routine => routine.source == body.element) = none) :
    (table.push (.subroutine address body) body.element).Made root where
  inside := List.forall_mem_append.mpr ⟨made.inside, List.forall_mem_singleton.mpr inside⟩
  distinct := by
    rw [made.findIdx?_eq] at absent
    refine List.pairwise_append.mpr ⟨made.distinct, List.pairwise_singleton _ _, ?_⟩
    intro key present other isNew
    obtain rfl := List.mem_singleton.mp isNew
    exact List.findIdx?_eq_none_iff.mp absent key present
  sources := by
    rw [HashTable.push, List.map_append, List.map_append, made.sources]
    rfl

/-- The nodes of a subroutine do not change its key. -/
theorem Made.set (made : table.Made root) {index : Nat} {old routine : Routine}
    (present : table.routines[index]? = some old) (same : routine.source = old.source) :
    ({ table with routines := table.routines.set index routine } : HashTable).Made root where
  inside := made.inside
  distinct := made.distinct
  sources := by
    obtain ⟨inside, rfl⟩ := List.getElem?_eq_some_iff.mp present
    rw [made.sources, List.map_set, same]
    refine (List.ext_getElem? fun place => ?_).symm
    rw [List.getElem?_set]
    split
    · next atIndex => simp [← atIndex, inside]
    · rfl

/-! ## Lowering -/

/-- Both ways to lower `parts` after `table` return the same, or fail alike. -/
def Agrees (root : Object) (table : HashTable) (parts : List Object)
    (inMemory : Except Unsupported (List Node × HashTable))
    (lowered : Except Unsupported (List Node × List Routine)) : Prop :=
  (∃ feature, inMemory = .error feature ∧ lowered = .error feature) ∨
    ∃ nodes next, inMemory = .ok (nodes, next) ∧ lowered = .ok (nodes, next.routines) ∧
      next.Made root ∧ ∀ key ∈ next.keys, key ∈ table.keys ∨ key ∈ parts

theorem Agrees.mono {parts others : List Object}
    {inMemory : Except Unsupported (List Node × HashTable)}
    {lowered : Except Unsupported (List Node × List Routine)} (subset : parts ⊆ others)
    (agrees : Agrees root table parts inMemory lowered) :
    Agrees root table others inMemory lowered := by
  rcases agrees with failed | ⟨nodes, next, ok, okLowered, made, keys⟩
  · exact .inl failed
  · exact .inr ⟨nodes, next, ok, okLowered, made, fun key present =>
      (keys key present).imp_right (subset ·)⟩

/-- No key is at the address of one of the parts. -/
def New (table : HashTable) (parts : List Object) : Prop :=
  ∀ key ∈ table.keys, ∀ part ∈ parts, part.address ≠ key.address

theorem New.mono {parts others : List Object} (new : table.New parts) (subset : others ⊆ parts) :
    table.New others :=
  fun key present part isPart => new key present part (subset isPart)

/-- The key of a subroutine is not in its body. -/
theorem New.push {address : Nat} {body : Object}
    (apart : (((Object.subroutine address body) :: body :: body.inner).map Object.address).Nodup)
    (new : table.New (.subroutine address body :: body :: body.inner)) :
    (table.push (.subroutine address body) body.element).New (body :: body.inner) := by
  refine List.forall_mem_append.mpr ⟨new.mono (List.subset_cons_self _ _), ?_⟩
  refine List.forall_mem_singleton.mpr fun part isPart same => ?_
  exact (List.nodup_cons.mp apart).1 (List.mem_map.mpr ⟨part, isPart, same⟩)

mutual

/-- Lowering an element in memory, after a table that was made from other parts of `root`. -/
theorem lower_agrees (lookup : Lookup) (separate : ((root :: root.inner).map Object.address).Nodup)
    {table : HashTable} {object : Object} (made : table.Made root)
    (inside : object ∈ root :: root.inner)
    (apart : ((object :: object.inner).map Object.address).Nodup)
    (new : table.New (object :: object.inner)) :
    Agrees root table (object :: object.inner) (lower lookup table object)
      (ProgramGraph.lower table.routines object.element) := by
  have inner := List.subset_cons_self object object.inner
  have apartInner := (List.nodup_cons.mp apart).2
  have insideInner : ∀ child ∈ object.children, child ∈ root :: root.inner := fun child isChild =>
    List.mem_cons_of_mem _ (Object.mem_inner_of_child inside isChild)
  match object with
  | .timestamp _ t => exact .inr ⟨_, _, rfl, rfl, made, fun _ => .inl⟩
  | .trigger _ => exact .inl ⟨_, rfl, rfl⟩
  | .parallel _ _ => exact .inl ⟨_, rfl, rfl⟩
  | .sequence address children =>
    exact (lowerAll_agrees lookup separate made insideInner apartInner (new.mono inner)).mono inner
  | .repeated address body times =>
    have insideBody := insideInner body (List.mem_singleton_self _)
    have agrees := lower_agrees lookup separate made insideBody apartInner (new.mono inner)
    rw [lower, Object.element, ProgramGraph.lower]
    rcases agrees.mono inner with
      ⟨feature, failed, failedLowered⟩ | ⟨nodes, next, ok, okLowered, result⟩
    · rw [failed, failedLowered]
      exact .inl ⟨feature, rfl, rfl⟩
    · rw [ok, okLowered]
      exact .inr ⟨_, next, rfl, rfl, result⟩
  | .subroutine address body =>
    have insideBody := insideInner body (List.mem_singleton_self _)
    have newKey : ∀ key ∈ table.keys, address ≠ key.address :=
      fun key present => new key present _ List.mem_cons_self
    rw [lower, Object.element, ProgramGraph.lower, lookup.find_eq separate made inside newKey]
    cases found : table.routines.findIdx? fun routine => routine.source == body.element with
    | some index => exact .inr ⟨_, table, rfl, rfl, made, fun _ => .inl⟩
    | none =>
      have agrees := lower_agrees lookup separate (made.push inside found) insideBody apartInner
        (New.push apart new)
      rw [routines_push] at agrees
      rcases agrees with
        ⟨feature, failed, failedLowered⟩ | ⟨nodes, next, ok, okLowered, madeNext, keys⟩
      · simp only [failed, failedLowered]
        exact .inl ⟨feature, rfl, rfl⟩
      obtain ⟨added, extended, _⟩ := ProgramGraph.lower_spec okLowered
      have place : next.routines[table.routines.length]? = some ⟨body.element, [], 0⟩ := by
        simp [extended]
      simp only [ok, okLowered]
      refine .inr ⟨_, _, rfl, rfl, madeNext.set place rfl, fun key present => ?_⟩
      rcases keys key present with before | inBody
      · rcases List.mem_append.mp before with old | isNew
        · exact .inl old
        · exact .inr (List.mem_cons.mpr (.inl (List.mem_singleton.mp isNew)))
      · exact .inr (List.mem_cons_of_mem _ inBody)

theorem lowerAll_agrees (lookup : Lookup)
    (separate : ((root :: root.inner).map Object.address).Nodup)
    {table : HashTable} {objects : List Object} (made : table.Made root)
    (inside : ∀ object ∈ objects, object ∈ root :: root.inner)
    (apart : ((Object.innerAll objects).map Object.address).Nodup)
    (new : table.New (Object.innerAll objects)) :
    Agrees root table (Object.innerAll objects) (lowerAll lookup table objects)
      (ProgramGraph.lowerAll table.routines (Object.elements objects)) := by
  match objects with
  | [] => exact .inr ⟨_, _, rfl, rfl, made, fun _ => .inl⟩
  | object :: rest =>
    have parts : Object.innerAll (object :: rest)
        = (object :: object.inner) ++ Object.innerAll rest := rfl
    rw [parts, List.map_append, List.nodup_append'] at apart
    obtain ⟨apartFirst, apartRest, disjoint⟩ := apart
    obtain ⟨insideFirst, insideRest⟩ := List.forall_mem_cons.mp inside
    rw [parts] at new ⊢
    have newFirst := new.mono (List.subset_append_left _ _)
    rw [lowerAll, Object.elements, ProgramGraph.lowerAll]
    rcases lower_agrees lookup separate made insideFirst apartFirst newFirst with
      ⟨feature, failed, failedLowered⟩ | ⟨first, next, ok, okLowered, madeNext, keys⟩
    · rw [failed, failedLowered]
      exact .inl ⟨feature, rfl, rfl⟩
    have newRest : next.New (Object.innerAll rest) := by
      intro key present part isPart
      rcases keys key present with old | inFirst
      · exact new key old part (List.mem_append_right _ isPart)
      · intro same
        exact disjoint (List.mem_map_of_mem inFirst) (same ▸ List.mem_map_of_mem isPart)
    simp only [ok, okLowered, Except.ok_bind]
    rcases lowerAll_agrees lookup separate madeNext insideRest apartRest newRest with
      ⟨feature, failed, failedLowered⟩ | ⟨others, last, okRest, okLoweredRest, madeLast, keysRest⟩
    · rw [failed, failedLowered]
      exact .inl ⟨feature, rfl, rfl⟩
    · rw [okRest, okLoweredRest]
      refine .inr ⟨_, last, rfl, rfl, madeLast, fun key present => ?_⟩
      rcases keysRest key present with old | inRest
      · exact (keys key old).imp_right (List.mem_append_left _)
      · exact .inr (List.mem_append_right _ inRest)

end

/-- Any hash table gives the graph of the element that is stored, with everything in it at new
addresses. -/
theorem ofObject_eq (lookup : Lookup) (free : Nat) (e : Element) :
    ofObject lookup (Object.store free e).1 = ProgramGraph.ofElement e := by
  have addresses := (Object.addresses_store free e).1
  have separate := addresses ▸ List.nodup_range'
  have nothing : empty.Made (Object.store free e).1 := ⟨List.forall_mem_nil _, .nil, rfl⟩
  have agrees := lower_agrees lookup separate nothing List.mem_cons_self separate
    (List.forall_mem_nil _)
  rw [Object.element_store, routines_empty] at agrees
  rw [ofObject, ProgramGraph.ofElement]
  rcases agrees with ⟨feature, failed, failedLowered⟩ | ⟨nodes, table, ok, okLowered, _⟩
  · rw [failed, failedLowered]
    rfl
  · rw [ok, okLowered]
    rfl

end HashTable

end PulseSequencer
