import PulseSequencer.Proofs.Element.Sharing

/-!
# Everything that can be made

Elements are made step by step out of earlier ones. A step writes to new addresses only, so one
memory holds everything that was made, and the laws of equality hold for it. In all other respects
the addresses do not matter: the steps make the elements that they would make without them.

Results:
1. `Object.addresses_store`: an element that is stored anew takes one address for each part.
2. `Workspace.perform_elements`, `Workspace.run_elements`: what steps make, without the addresses.
3. `Workspace.exists_memory`: one memory holds everything that was made.
4. `Workspace.perform_project`: a projection is compared to what was projected by the structure.
5. `Workspace.equal_laws`: the laws of equality for everything that can be made.
6. `Workspace.equal_self_fails`: an element that differs from its own copy.
-/

namespace PulseSequencer

namespace Object

/-! ## New addresses -/

theorem address_moveTo (address : Nat) (object : Object) :
    (object.moveTo address).address = address := by
  cases object <;> rfl

theorem inner_moveTo (address : Nat) (object : Object) :
    (object.moveTo address).inner = object.inner := by
  cases object <;> rfl

theorem element_moveTo (address : Nat) (object : Object) :
    (object.moveTo address).element = object.element := by
  cases object <;> rfl

theorem addresses_row (free : Nat) (objects : List Object) :
    (row free objects).map address = List.range' free (row free objects).length := by
  induction objects generalizing free with
  | nil => rfl
  | cons object rest ih =>
    rw [row, List.map_cons, List.length_cons, List.range'_succ, address_moveTo, ih]

theorem elements_eq_map (objects : List Object) : elements objects = objects.map element := by
  induction objects with
  | nil => rfl
  | cons object rest ih => rw [elements, ih, List.map_cons]

theorem elements_row (free : Nat) (objects : List Object) :
    elements (row free objects) = objects.map element := by
  induction objects generalizing free with
  | nil => rfl
  | cons object rest ih => rw [row, elements, element_moveTo, ih, List.map_cons]

theorem multiply?_eq_some {object product : Object} {times : UInt32}
    (multiplied : object.multiply? times = some product) :
    ∃ address body inner, object = .repeated address body inner ∧
      inner.toNat * times.toNat < 1 <<< 32 ∧ product = .repeated 0 body (inner * times) := by
  cases object with
  | repeated address body inner =>
    rw [multiply?, Option.ite_none_right_eq_some] at multiplied
    obtain ⟨fits, same⟩ := multiplied
    exact ⟨address, body, inner, rfl, fits, (Option.some.inj same).symm⟩
  | timestamp | trigger | sequence | parallel | subroutine => cases multiplied

theorem element_multiply? {object product : Object} {times : UInt32}
    (multiplied : object.multiply? times = some product) :
    product.element = object.element.repeatTimes times := by
  obtain ⟨address, body, inner, rfl, fits, rfl⟩ := multiply?_eq_some multiplied
  exact (if_pos fits).symm

theorem inner_multiply? {object product : Object} {times : UInt32}
    (multiplied : object.multiply? times = some product) : product.inner = object.inner := by
  obtain ⟨address, body, inner, rfl, _, rfl⟩ := multiply?_eq_some multiplied
  rfl

theorem repeatTimes_of_multiply? {object : Object} {times : UInt32}
    (unmultiplied : object.multiply? times = none) :
    object.element.repeatTimes times = .repeated object.element times := by
  cases object with
  | repeated address body inner =>
    rw [multiply?, ite_eq_right_iff] at unmultiplied
    exact if_neg fun fits => Option.some_ne_none _ (unmultiplied fits)
  | timestamp | trigger | sequence | parallel | subroutine => rfl

/-- What is in objects of a row is new or was in one of the old objects. -/
theorem mem_innerAll_row {free : Nat} {objects : List Object} {part : Object}
    (inside : part ∈ innerAll (row free objects)) :
    part ∈ row free objects ∨ ∃ object ∈ objects, part ∈ object.inner := by
  induction objects generalizing free with
  | nil => cases inside
  | cons object rest ih =>
    rw [row, innerAll, List.mem_cons, List.mem_append, inner_moveTo] at inside
    rw [row, List.mem_cons, List.exists_mem_cons_iff]
    rcases inside with isFirst | inFirst | inRest
    · exact .inl (.inl isFirst)
    · exact .inr (.inl inFirst)
    · rcases ih inRest with isNew | wasOld
      · exact .inl (.inr isNew)
      · exact .inr (.inr wasOld)

mutual

theorem element_store (free : Nat) (e : Element) : (store free e).1.element = e := by
  match e with
  | .timestamp t => rfl
  | .trigger => rfl
  | .sequence children =>
    exact congrArg Element.sequence (elements_storeAll (free + 1) children)
  | .parallel children =>
    exact congrArg Element.parallel (elements_storeAll (free + 1) children)
  | .repeated body times =>
    exact congrArg (Element.repeated · times) (element_store (free + 1) body)
  | .subroutine body => exact congrArg Element.subroutine (element_store (free + 1) body)

theorem elements_storeAll (free : Nat) (es : List Element) :
    elements (storeAll free es).1 = es := by
  match es with
  | [] => rfl
  | e :: rest =>
    exact congrArg₂ _ (element_store free e) (elements_storeAll (store free e).2 rest)

end

mutual

/-- A stored element takes the addresses from `free` on, one for each part. -/
theorem addresses_store (free : Nat) (e : Element) :
    ((store free e).1 :: (store free e).1.inner).map address
        = List.range' free ((store free e).1.inner.length + 1) ∧
      (store free e).2 = free + ((store free e).1.inner.length + 1) := by
  match e with
  | .timestamp t => exact ⟨rfl, rfl⟩
  | .trigger => exact ⟨rfl, rfl⟩
  | .sequence children =>
    obtain ⟨addresses, next⟩ := addresses_storeAll (free + 1) children
    refine ⟨congrArg (free :: ·) addresses, next.trans ?_⟩
    exact Nat.add_right_comm ..
  | .parallel children =>
    obtain ⟨addresses, next⟩ := addresses_storeAll (free + 1) children
    refine ⟨congrArg (free :: ·) addresses, next.trans ?_⟩
    exact Nat.add_right_comm ..
  | .repeated body times =>
    obtain ⟨addresses, next⟩ := addresses_store (free + 1) body
    refine ⟨congrArg (free :: ·) addresses, next.trans ?_⟩
    exact Nat.add_right_comm ..
  | .subroutine body =>
    obtain ⟨addresses, next⟩ := addresses_store (free + 1) body
    refine ⟨congrArg (free :: ·) addresses, next.trans ?_⟩
    exact Nat.add_right_comm ..

theorem addresses_storeAll (free : Nat) (es : List Element) :
    (innerAll (storeAll free es).1).map address
        = List.range' free (innerAll (storeAll free es).1).length ∧
      (storeAll free es).2 = free + (innerAll (storeAll free es).1).length := by
  match es with
  | [] => exact ⟨rfl, rfl⟩
  | e :: rest =>
    obtain ⟨addresses, next⟩ := addresses_store free e
    obtain ⟨addressesRest, nextRest⟩ := addresses_storeAll (store free e).2 rest
    have parts : innerAll (storeAll free (e :: rest)).1
        = ((store free e).1 :: (store free e).1.inner)
          ++ innerAll (storeAll (store free e).2 rest).1 := rfl
    have last : (storeAll free (e :: rest)).2 = (storeAll (store free e).2 rest).2 := rfl
    rw [parts, List.map_append, addresses, addressesRest, last, nextRest, next, List.length_append,
      List.length_cons, List.range'_append_1]
    exact ⟨rfl, Nat.add_assoc ..⟩

end

end Object

/-! ## Steps without addresses -/

namespace Construction

/-- A step on elements alone. -/
def apply (made : List Element) : Construction → Except ConstructionError (List Element)
  | .timestamp t => .ok (.timestamp t :: made)
  | .trigger => .ok (.trigger :: made)
  | .sequence count => do
    let (children, rest) ← take made count
    return .sequence children :: rest
  | .parallel count => do
    let (children, rest) ← take made count
    let parallel ← (Element.sideBySide children).mapError .sequence
    return parallel :: rest
  | .repeated times => do
    let (top, rest) ← pop made
    return .repeated top times :: rest
  | .product times => do
    let (top, rest) ← pop made
    return top.repeatTimes times :: rest
  | .subroutine => do
    let (top, rest) ← pop made
    return .subroutine top :: rest
  | .project group => do
    let (top, rest) ← pop made
    let projected ← (top.project group).mapError .sequence
    return projected :: rest
  | .copy => do
    let (top, _) ← pop made
    return top :: made
  | .swap => do
    let (lastTwo, rest) ← take made 2
    return lastTwo ++ rest
  | .drop => do
    let (_, rest) ← pop made
    return rest

theorem pop_map {α β : Type} (f : α → β) (made : List α) :
    pop (made.map f) = (pop made).map fun (top, rest) => (f top, rest.map f) := by
  cases made <;> rfl

theorem take_map {α β : Type} (f : α → β) (made : List α) (count : Nat) :
    take (made.map f) count
      = (take made count).map fun (last, rest) => (last.map f, rest.map f) := by
  rw [take, take, List.length_map]
  split
  · rfl
  · rw [← List.map_take, ← List.map_reverse, ← List.map_drop]
    rfl

theorem pop_eq_ok {α : Type} {made rest : List α} {top : α} (ok : pop made = .ok (top, rest)) :
    made = top :: rest := by
  cases made with
  | nil => cases ok
  | cons => cases ok; rfl

theorem top_mem_of_pop {α : Type} {made rest : List α} {top : α}
    (popped : pop made = .ok (top, rest)) : top ∈ made :=
  pop_eq_ok popped ▸ List.mem_cons_self

theorem rest_subset_of_pop {α : Type} {made rest : List α} {top : α}
    (popped : pop made = .ok (top, rest)) : rest ⊆ made :=
  pop_eq_ok popped ▸ List.subset_cons_self top rest

theorem take_eq_ok {α : Type} {made last rest : List α} {count : Nat}
    (ok : take made count = .ok (last, rest)) : last ⊆ made ∧ rest ⊆ made := by
  unfold take at ok
  split at ok
  · cases ok
  · cases ok
    exact ⟨fun _ present => List.mem_of_mem_take (List.mem_reverse.mp present),
      fun _ present => List.mem_of_mem_drop present⟩

end Construction

theorem Element.sideBySide_eq_ok {children : List Element} {parallel : Element}
    (ok : sideBySide children = .ok parallel) : parallel = .parallel children := by
  rw [sideBySide] at ok
  split at ok
  · cases ok
  · obtain ⟨_, _, ok⟩ := Except.bind_eq_ok_iff.mp ok
    cases ok
    rfl

namespace Workspace

open Construction (take pop)

/-- A step makes the element that it would make without addresses. -/
theorem perform_elements (workspace : Workspace) (construction : Construction) :
    (workspace.perform construction).map (fun next => next.objects.map Object.element)
      = construction.apply (workspace.objects.map Object.element) := by
  cases construction with
  | timestamp t => rfl
  | trigger => rfl
  | sequence count =>
    rw [perform, Construction.apply, Construction.take_map]
    cases take workspace.objects count with
    | error error => rfl
    | ok taken =>
      exact congrArg (fun row => Except.ok (.sequence row :: taken.2.map Object.element))
        (Object.elements_row workspace.free taken.1)
  | parallel count =>
    rw [perform, Construction.apply, Construction.take_map]
    cases take workspace.objects count with
    | error error => rfl
    | ok taken =>
      have children := Object.elements_eq_map taken.1
      simp only [Except.map, Except.ok_bind, children]
      cases built : Element.sideBySide (taken.1.map Object.element) with
      | error error => rfl
      | ok parallel =>
        rw [Element.sideBySide_eq_ok built]
        exact congrArg (fun row => Except.ok (.parallel row :: taken.2.map Object.element))
          (Object.elements_row workspace.free taken.1)
  | repeated times =>
    rw [perform, Construction.apply, Construction.pop_map]
    cases pop workspace.objects with
    | error error => rfl
    | ok popped =>
      exact congrArg (fun body => Except.ok (.repeated body times :: popped.2.map Object.element))
        (Object.element_moveTo workspace.free popped.1)
  | product times =>
    rw [perform, Construction.apply, Construction.pop_map]
    cases pop workspace.objects with
    | error error => rfl
    | ok popped =>
      simp only [Except.map, Except.ok_bind]
      cases multiplied : popped.1.multiply? times with
      | none =>
        rw [Object.repeatTimes_of_multiply? multiplied]
        exact congrArg (fun body => Except.ok (.repeated body times :: popped.2.map Object.element))
          (Object.element_moveTo workspace.free popped.1)
      | some product =>
        rw [← Object.element_multiply? multiplied]
        rfl
  | subroutine =>
    rw [perform, Construction.apply, Construction.pop_map]
    cases pop workspace.objects with
    | error error => rfl
    | ok popped =>
      exact congrArg (fun body => Except.ok (.subroutine body :: popped.2.map Object.element))
        (Object.element_moveTo workspace.free popped.1)
  | project group =>
    rw [perform, Construction.apply, Construction.pop_map]
    cases pop workspace.objects with
    | error error => rfl
    | ok popped =>
      simp only [Except.map, Except.ok_bind]
      cases popped.1.element.project group with
      | error error => rfl
      | ok projected =>
        exact congrArg (fun top => Except.ok (top :: popped.2.map Object.element))
          (Object.element_store workspace.free projected)
  | copy =>
    rw [perform, Construction.apply, Construction.pop_map]
    cases pop workspace.objects <;> rfl
  | swap =>
    rw [perform, Construction.apply, Construction.take_map]
    cases take workspace.objects 2 with
    | error error => rfl
    | ok taken => exact congrArg Except.ok List.map_append
  | drop =>
    rw [perform, Construction.apply, Construction.pop_map]
    cases pop workspace.objects <;> rfl

/-- Steps one after the other make the elements that they would make without addresses. -/
theorem run_elements (workspace : Workspace) (constructions : List Construction) :
    (workspace.run constructions).map (fun result => result.objects.map Object.element)
      = constructions.foldlM (fun made construction => construction.apply made)
          (workspace.objects.map Object.element) := by
  induction constructions generalizing workspace with
  | nil => rfl
  | cons construction rest ih =>
    have step := workspace.perform_elements construction
    rw [run, List.foldlM_cons, List.foldlM_cons, ← step]
    cases workspace.perform construction with
    | error error => rfl
    | ok next => exact ih next

end Workspace

/-! ## Everything that was made -/

namespace Workspace

open Construction (pop top_mem_of_pop rest_subset_of_pop)

/-- A memory that holds everything in the objects, below the first free address. -/
def Kept (workspace : Workspace) (memory : Nat → Object) : Prop :=
  ∀ object ∈ workspace.objects, ∀ part ∈ object.inner,
    memory part.address = part ∧ part.address < workspace.free

/-- Objects at new addresses do not disturb the old ones. -/
theorem Kept.extend {workspace : Workspace} {memory : Nat → Object} (kept : workspace.Kept memory)
    {objects fresh : List Object}
    (addresses : fresh.map Object.address = List.range' workspace.free fresh.length)
    (inside : ∀ object ∈ objects, ∀ part ∈ object.inner,
      part ∈ fresh ∨ ∃ old ∈ workspace.objects, part ∈ old.inner) :
    ∃ extended, Kept ⟨objects, workspace.free + fresh.length⟩ extended := by
  refine ⟨fun address => if address < workspace.free then memory address
    else fresh.getD (address - workspace.free) default, fun object present part inObject => ?_⟩
  rcases inside object present part inObject with isNew | ⟨old, isOld, inOld⟩
  · obtain ⟨index, inRange, rfl⟩ := List.getElem_of_mem isNew
    have address : fresh[index].address = workspace.free + index := by
      have found := congrArg (·[index]?) addresses
      simpa [inRange] using found
    rw [address]
    refine ⟨(if_neg (Nat.not_lt.mpr (Nat.le_add_right _ _))).trans ?_,
      Nat.add_lt_add_left inRange _⟩
    rw [Nat.add_sub_cancel_left, List.getD_eq_getElem?_getD, List.getElem?_eq_getElem inRange]
    rfl
  · obtain ⟨held, below⟩ := kept old isOld part inOld
    exact ⟨(if_pos below).trans held, Nat.lt_add_right _ below⟩

theorem Kept.rearrange {workspace : Workspace} {memory : Nat → Object}
    (kept : workspace.Kept memory) {objects : List Object}
    (inside : ∀ object ∈ objects, ∀ part ∈ object.inner,
      ∃ old ∈ workspace.objects, part ∈ old.inner) :
    ∃ extended, Kept ⟨objects, workspace.free⟩ extended := by
  refine ⟨memory, fun object present part inObject => ?_⟩
  obtain ⟨old, isOld, inOld⟩ := inside object present part inObject
  exact kept old isOld part inOld

/-- A new last object in which there is nothing new. -/
theorem Kept.replaceTop {workspace : Workspace} {memory : Nat → Object}
    (kept : workspace.Kept memory) {top : Object} {rest : List Object}
    (top_old : ∀ part ∈ top.inner, ∃ old ∈ workspace.objects, part ∈ old.inner)
    (rest_old : rest ⊆ workspace.objects) :
    ∃ extended, Kept ⟨top :: rest, workspace.free⟩ extended :=
  kept.rearrange (List.forall_mem_cons.mpr
    ⟨top_old, fun object present _ inside => ⟨object, rest_old present, inside⟩⟩)

/-- Old objects become the children of a new one. -/
theorem Kept.wrap {workspace : Workspace} {memory : Nat → Object} (kept : workspace.Kept memory)
    {outer : Object} {children rest : List Object}
    (around : outer.inner = Object.innerAll (Object.row workspace.free children))
    (children_old : children ⊆ workspace.objects) (rest_old : rest ⊆ workspace.objects) :
    ∃ extended,
      Kept ⟨outer :: rest, workspace.free + (Object.row workspace.free children).length⟩
        extended := by
  refine kept.extend (Object.addresses_row workspace.free children)
    fun object present part inside => ?_
  rcases List.mem_cons.mp present with rfl | inRest
  · rw [around] at inside
    rcases Object.mem_innerAll_row inside with isNew | ⟨old, isOld, inOld⟩
    · exact .inl isNew
    · exact .inr ⟨old, children_old isOld, inOld⟩
  · exact .inr ⟨object, rest_old inRest, inside⟩

/-- The last object becomes the only child of a new one. -/
theorem Kept.wrapTop {workspace : Workspace} {memory : Nat → Object}
    (kept : workspace.Kept memory) {outer top : Object} {rest : List Object}
    (popped : pop workspace.objects = .ok (top, rest))
    (around : outer.inner = top.moveTo workspace.free :: top.inner) :
    ∃ extended, Kept ⟨outer :: rest, workspace.free + 1⟩ extended := by
  refine @Kept.wrap workspace memory kept outer [top] rest ?_ ?_ (rest_subset_of_pop popped)
  · rw [around, Object.row, Object.row, Object.innerAll, Object.innerAll, List.append_nil,
      Object.inner_moveTo]
  · exact List.cons_subset.mpr ⟨top_mem_of_pop popped, List.nil_subset _⟩

/-- A step keeps one memory for everything that was made. -/
theorem exists_kept_perform {workspace next : Workspace} {memory : Nat → Object}
    (kept : workspace.Kept memory) {construction : Construction}
    (ok : workspace.perform construction = .ok next) : ∃ extended, next.Kept extended := by
  cases construction with
  | timestamp t =>
    cases ok
    exact kept.replaceTop (List.forall_mem_nil _) (List.Subset.refl _)
  | trigger =>
    cases ok
    exact kept.replaceTop (List.forall_mem_nil _) (List.Subset.refl _)
  | sequence count =>
    obtain ⟨⟨children, rest⟩, taken, done⟩ := Except.bind_eq_ok_iff.mp ok
    cases done
    obtain ⟨children_old, rest_old⟩ := Construction.take_eq_ok taken
    exact kept.wrap rfl children_old rest_old
  | parallel count =>
    obtain ⟨⟨children, rest⟩, taken, ok⟩ := Except.bind_eq_ok_iff.mp ok
    obtain ⟨_, _, done⟩ := Except.bind_eq_ok_iff.mp ok
    cases done
    obtain ⟨children_old, rest_old⟩ := Construction.take_eq_ok taken
    exact kept.wrap rfl children_old rest_old
  | repeated times =>
    obtain ⟨⟨top, rest⟩, popped, done⟩ := Except.bind_eq_ok_iff.mp ok
    cases done
    exact kept.wrapTop popped (congrArg _ (Object.inner_moveTo workspace.free top))
  | product times =>
    obtain ⟨⟨top, rest⟩, popped, ok⟩ := Except.bind_eq_ok_iff.mp ok
    dsimp only at ok
    split at ok
    · next product multiplied =>
      cases ok
      refine kept.replaceTop (fun part inside => ?_) (rest_subset_of_pop popped)
      exact ⟨top, top_mem_of_pop popped, Object.inner_multiply? multiplied ▸ inside⟩
    · cases ok
      exact kept.wrapTop popped (congrArg _ (Object.inner_moveTo workspace.free top))
  | subroutine =>
    obtain ⟨⟨top, rest⟩, popped, done⟩ := Except.bind_eq_ok_iff.mp ok
    cases done
    exact kept.wrapTop popped (congrArg _ (Object.inner_moveTo workspace.free top))
  | project group =>
    obtain ⟨⟨top, rest⟩, popped, ok⟩ := Except.bind_eq_ok_iff.mp ok
    obtain ⟨projected, _, done⟩ := Except.bind_eq_ok_iff.mp ok
    cases done
    obtain ⟨addresses, next⟩ := Object.addresses_store workspace.free projected
    rw [next]
    refine kept.extend addresses (List.forall_mem_cons.mpr ⟨fun part inside => ?_, ?_⟩)
    · exact .inl (List.mem_cons_of_mem _ inside)
    · exact fun object present part inside =>
        .inr ⟨object, rest_subset_of_pop popped present, inside⟩
  | copy =>
    obtain ⟨⟨top, rest⟩, popped, done⟩ := Except.bind_eq_ok_iff.mp ok
    cases done
    exact kept.replaceTop (fun part inside => ⟨top, top_mem_of_pop popped, inside⟩)
      (List.Subset.refl _)
  | swap =>
    obtain ⟨⟨lastTwo, rest⟩, taken, done⟩ := Except.bind_eq_ok_iff.mp ok
    cases done
    obtain ⟨lastTwo_old, rest_old⟩ := Construction.take_eq_ok taken
    refine kept.rearrange fun object present part inside => ⟨object, ?_, inside⟩
    exact List.append_subset.mpr ⟨lastTwo_old, rest_old⟩ present
  | drop =>
    obtain ⟨⟨top, rest⟩, popped, done⟩ := Except.bind_eq_ok_iff.mp ok
    cases done
    exact kept.rearrange fun object present part inside =>
      ⟨object, rest_subset_of_pop popped present, inside⟩

/-- One memory holds everything that was made, at any time. -/
theorem exists_kept_run {constructions : List Construction} {workspace result : Workspace}
    {memory : Nat → Object} (kept : workspace.Kept memory)
    (ok : workspace.run constructions = .ok result) : ∃ extended, result.Kept extended := by
  induction constructions generalizing workspace memory with
  | nil =>
    cases ok
    exact ⟨memory, kept⟩
  | cons construction rest ih =>
    obtain ⟨next, performed, okRest⟩ := Except.bind_eq_ok_iff.mp ok
    obtain ⟨extended, keptNext⟩ := exists_kept_perform kept performed
    exact ih keptNext okRest

theorem exists_kept {constructions : List Construction} {workspace : Workspace}
    (made : empty.run constructions = .ok workspace) : ∃ memory, workspace.Kept memory :=
  @exists_kept_run constructions empty workspace (fun _ => default) (List.forall_mem_nil _) made

theorem exists_memory {constructions : List Construction} {workspace : Workspace}
    (made : empty.run constructions = .ok workspace) :
    ∃ memory, ∀ object ∈ workspace.objects, object.StoredIn memory := by
  obtain ⟨memory, kept⟩ := exists_kept made
  exact ⟨memory, fun object present part inside => (kept object present part inside).1⟩

/-- A projection is stored anew and shares nothing with the element that was projected, so that
their structures are compared. -/
theorem perform_project {constructions : List Construction} {top : Object} {rest : List Object}
    {free : Nat} {group : ChannelSet} {e projected : Element}
    (made : empty.run constructions = .ok ⟨top :: rest, free⟩) (isTop : top.element = e)
    (ok : e.project group = .ok projected) :
    ∃ object next, perform ⟨top :: rest, free⟩ (.project group) = .ok ⟨object :: rest, next⟩ ∧
      object.element = projected ∧ object.equal top = (projected == e) := by
  obtain ⟨memory, kept⟩ := exists_kept made
  have element := Object.element_store free projected
  have done : perform ⟨top :: rest, free⟩ (.project group)
      = .ok ⟨(Object.store free projected).1 :: rest, (Object.store free projected).2⟩ := by
    rw [perform]
    simp only [pop, Except.ok_bind, isTop, ok]
    rfl
  have apart : ∀ part ∈ (Object.store free projected).1.inner, ∀ old ∈ top.inner,
      part.address ≠ old.address := by
    intro part inNew old inOld
    have address := List.mem_map_of_mem (f := Object.address)
      (List.mem_cons_of_mem (Object.store free projected).1 inNew)
    rw [(Object.addresses_store free projected).1, List.mem_range'_1] at address
    exact Nat.ne_of_gt ((kept top List.mem_cons_self old inOld).2.trans_le address.1)
  refine ⟨(Object.store free projected).1, _, done, element, ?_⟩
  rw [Object.equal_eq_beq_of_apart apart, element, isTop]

/-- For everything that can be made, equality is symmetric and transitive. An element is equal to
itself exactly if its own duration is a number or it is a subroutine, which is always so if no part
of it lasts for more than `2 ^ 1019` seconds. Unless a duration in it is not a number, equality is
that of the structure. -/
theorem equal_laws {constructions : List Construction} {workspace : Workspace}
    (made : empty.run constructions = .ok workspace) {a b c : Object}
    (insideA : a ∈ workspace.objects) (insideB : b ∈ workspace.objects)
    (insideC : c ∈ workspace.objects) :
    (a.equal a = true ↔
      (∃ body, a.element = .subroutine body) ∨ a.element.duration.value ≠ .nan) ∧
    ((∀ part ∈ a.element.subelements, part.exactDuration ≤ Duration.safe) → a.equal a = true) ∧
    (a.equal b = true ↔ b.equal a = true) ∧
    (a.equal b = true → b.equal c = true → a.equal c = true) ∧
    ((∀ part ∈ a.element.subelements, part.duration.value ≠ .nan) →
      a.equal b = (a.element == b.element)) := by
  obtain ⟨memory, stored⟩ := exists_memory made
  have storedA := stored a insideA
  have storedB := stored b insideB
  have storedC := stored c insideC
  refine ⟨Object.equal_self_iff, fun small => ?_, ⟨Object.equal_symm, Object.equal_symm⟩,
    Object.equal_trans storedA storedB storedC, fun numbers => ?_⟩
  · exact Object.equal_of_beq (Element.beq_self_of_safe small)
  · exact Bool.eq_iff_iff.mpr
      ⟨Object.beq_of_equal storedA storedB numbers, Object.equal_of_beq⟩

/-- Three pulses in a loop, made twice, and a copy of the first one. -/
def copiedPulses : List Construction :=
  [.timestamp (.second (.ofLevel 0 (some true))), .repeated 3, .copy,
   .timestamp (.second (.ofLevel 0 (some true))), .repeated 3]

theorem equal_laws_copiedPulses :
    ∃ first second, empty.run copiedPulses = .ok ⟨[second, first, first], 2⟩ ∧
      first.children.map Object.address = [0] ∧ second.children.map Object.address = [1] ∧
      first.equal first = true ∧ first.equal second = true ∧ second.equal first = true ∧
      first.equal second = (first.element == second.element) := by
  let pulse := Timestamp.second (.ofLevel 0 (some true))
  refine ⟨.repeated 0 (.timestamp 0 pulse) 3, .repeated 0 (.timestamp 1 pulse) 3, rfl, rfl, rfl, ?_⟩
  have made : empty.run copiedPulses = .ok ⟨[.repeated 0 (.timestamp 1 pulse) 3,
    .repeated 0 (.timestamp 0 pulse) 3, .repeated 0 (.timestamp 0 pulse) 3], 2⟩ := rfl
  have numbers : ∀ part ∈ (Element.repeated (.timestamp pulse) 3).subelements,
      part.duration.value ≠ .nan := by decide +kernel
  have alike : (Element.repeated (.timestamp pulse) 3 == .repeated (.timestamp pulse) 3) = true :=
    by decide +kernel
  obtain ⟨reflexive, _, symmetric, transitive, structural⟩ :=
    equal_laws made (a := .repeated 0 (.timestamp 0 pulse) 3)
      (b := .repeated 0 (.timestamp 1 pulse) 3) (c := .repeated 0 (.timestamp 0 pulse) 3)
      (by simp) (by simp) (by simp)
  have equals := (structural numbers).trans alike
  exact ⟨transitive equals (symmetric.mp equals), equals, symmetric.mp equals, structural numbers⟩

/-- Three timestamps in a row, repeated up to the largest number of seconds. -/
def longestRow : Except SequenceError (List Construction) := do
  let level (on : Bool) : List (String × Update) := [("D0", .digital ⟨some on⟩)]
  let first ← Timestamp.build (.ofBits 0x3968000000000000) (level true)
  let second ← Timestamp.build (.ofBits 0x3cb7ffffffffffff) (level false)
  let third ← Timestamp.build (.ofBits 0x3ffffffffffffffe) (level true)
  return [.timestamp first, .timestamp second, .timestamp third, .sequence 3]
    ++ List.replicate 33 (.repeated 2147483648)

/-- An element whose duration overflows differs from its own copy. -/
theorem equal_self_fails : ∃ constructions object free,
    longestRow = .ok constructions ∧
    empty.run (constructions ++ [.copy]) = .ok ⟨[object, object], free⟩ ∧
    object.element.duration.value = .nan ∧ object.equal object = false := by
  have values : (longestRow.toOption.bind fun constructions =>
      (empty.run constructions).toOption).map (fun workspace =>
        workspace.objects.map fun object => (object.element.duration.value, object.equal object))
      = some [(.nan, false)] := by decide +kernel
  cases okRow : longestRow with
  | error error =>
    rw [okRow] at values
    cases values
  | ok constructions =>
  cases okRun : empty.run constructions with
  | error error =>
    rw [okRow, Except.toOption, Option.bind_some, okRun] at values
    cases values
  | ok workspace =>
  rw [okRow, Except.toOption, Option.bind_some, okRun] at values
  obtain ⟨objects, free⟩ := workspace
  obtain ⟨object, rfl, value⟩ := List.map_eq_singleton_iff.mp (Option.some.inj values)
  obtain ⟨isNan, differs⟩ := Prod.mk.inj value
  have copied : empty.run (constructions ++ [.copy]) = .ok ⟨[object, object], free⟩ := by
    rw [run, List.foldlM_append]
    exact congrArg (· >>= ([Construction.copy].foldlM perform ·)) okRun
  exact ⟨constructions, object, free, rfl, copied, isNan, differs⟩

end Workspace

end PulseSequencer
