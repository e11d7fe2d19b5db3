import PulseSequencer.Proofs.Element.Projection
import PulseSequencer.Proofs.Program.Playback

/-!
# Isolation of channel groups

The program of a channel group depends on the updates of its own channels and on the limits of the
settings, and on nothing else: neither on what the sequence does to other channels, nor on the other
groups, their order or the name of the group.

Results:
1. `Element.project_erase`: updates of other channels do not change a projection.
2. `Stages.same_program`: the stages of a compilation have no access to the name of the group.
3. `compile_isolates`: the program of a group is the same in all compilations of sequences that
   agree on its channels.
-/

namespace PulseSequencer

namespace Element

/-! ## Erasure -/

mutual

/-- The element with the updates of the channels in `group` only, otherwise as it was. -/
def erase (group : ChannelSet) : Element → Element
  | .timestamp t => .timestamp (t.restrict group)
  | .trigger => .trigger
  | .sequence children => .sequence (eraseAll group children)
  | .parallel children => .parallel (eraseAll group children)
  | .repeated body times => .repeated (body.erase group) times
  | .subroutine body => .subroutine (body.erase group)

def eraseAll (group : ChannelSet) : List Element → List Element
  | [] => []
  | element :: rest => element.erase group :: eraseAll group rest

end

variable {group : ChannelSet}

theorem restrict_restrict (t : Timestamp) :
    (t.restrict group).restrict group = t.restrict group := by
  simp [Timestamp.restrict]

mutual

theorem duration_erase : ∀ element : Element, (element.erase group).duration = element.duration
  | .timestamp _ => rfl
  | .trigger => rfl
  | .sequence children => by rw [erase, duration, durations_eraseAll children, duration]
  | .parallel children => by rw [erase, duration, durations_eraseAll children, duration]
  | .repeated body _ => by rw [erase, duration, duration_erase body, duration]
  | .subroutine body => by rw [erase, duration, duration_erase body, duration]

theorem durations_eraseAll : ∀ elements : List Element,
    durations (eraseAll group elements) = durations elements
  | [] => rfl
  | element :: rest => by
    rw [eraseAll, durations, duration_erase element, durations_eraseAll rest, durations]

end

mutual

theorem hasTrigger_erase : ∀ element : Element,
    (element.erase group).hasTrigger = element.hasTrigger
  | .timestamp _ => rfl
  | .trigger => rfl
  | .sequence children => by rw [erase, hasTrigger, anyTrigger_eraseAll children, hasTrigger]
  | .parallel children => by rw [erase, hasTrigger, anyTrigger_eraseAll children, hasTrigger]
  | .repeated body _ => by rw [erase, hasTrigger, hasTrigger_erase body, hasTrigger]
  | .subroutine body => by rw [erase, hasTrigger, hasTrigger_erase body, hasTrigger]

theorem anyTrigger_eraseAll : ∀ elements : List Element,
    anyTrigger (eraseAll group elements) = anyTrigger elements
  | [] => rfl
  | element :: rest => by
    rw [eraseAll, anyTrigger, hasTrigger_erase element, anyTrigger_eraseAll rest, anyTrigger]

end

mutual

theorem mem_channels_erase {channel : Channel} : ∀ element : Element,
    channel ∈ (element.erase group).channels ↔ channel ∈ element.channels ∧ channel ∈ group
  | .timestamp t => by
    rw [erase, channels, channels, Timestamp.channels, Timestamp.channels,
      UpdateMap.mem_channels, UpdateMap.mem_channels, Timestamp.restrict, UpdateMap.get?_restrict]
    by_cases inGroup : channel ∈ group <;> simp [inGroup]
  | .trigger => by simp [erase, channels]
  | .sequence children => mem_allChannels_eraseAll children
  | .parallel children => mem_allChannels_eraseAll children
  | .repeated body _ => mem_channels_erase body
  | .subroutine body => mem_channels_erase body

theorem mem_allChannels_eraseAll {channel : Channel} : ∀ elements : List Element,
    channel ∈ allChannels (eraseAll group elements) ↔
      channel ∈ allChannels elements ∧ channel ∈ group
  | [] => by simp [eraseAll, allChannels]
  | element :: rest => by
    rw [eraseAll, allChannels, allChannels, ChannelSet.mem_union, ChannelSet.mem_union,
      mem_channels_erase element, mem_allChannels_eraseAll rest, or_and_right]

end

/-- Whether an element concerns a group depends on the channels of the group only. -/
theorem isRelevant_erase (element : Element) :
    (element.erase group).isRelevant group = element.isRelevant group := by
  rw [Bool.eq_iff_iff, isRelevant_iff, isRelevant_iff, hasTrigger_erase]
  simp only [mem_channels_erase, and_assoc, and_self]

/-! ## Projection -/

/-- A projection depends on relevance, duration and what is left of an element. -/
theorem project_congr {element other : Element}
    (relevant : element.isRelevant group = other.isRelevant group)
    (duration : element.duration = other.duration)
    (reduced : element.reduce group = other.reduce group) :
    element.project group = other.project group := by
  rw [project_eq, project_eq, relevant, duration, reduced]

mutual

/-- Updates of other channels do not change a projection, be it an element or an error. -/
theorem project_erase : ∀ element : Element,
    (element.erase group).project group = element.project group
  | .timestamp t => by
    refine project_congr (isRelevant_erase _) (duration_erase _) ?_
    rw [erase, reduce, reduce, restrict_restrict]
  | .trigger => rfl
  | .sequence children => by
    refine project_congr (isRelevant_erase _) (duration_erase _) ?_
    rw [erase, reduce, reduce, projectAll_eraseAll children]
  | .parallel children => by
    refine project_congr (isRelevant_erase _) (duration_erase _) ?_
    rw [erase, reduce, reduce]
  | .repeated body times => by
    refine project_congr (isRelevant_erase _) (duration_erase _) ?_
    rw [erase, reduce, reduce, project_erase body]
  | .subroutine body => by
    refine project_congr (isRelevant_erase _) (duration_erase _) ?_
    rw [erase, reduce, reduce, project_erase body]

theorem projectAll_eraseAll : ∀ elements : List Element,
    projectAll (eraseAll group elements) group = projectAll elements group
  | [] => rfl
  | element :: rest => by
    rw [eraseAll, projectAll, projectAll, project_erase element, projectAll_eraseAll rest]

end

end Element

/-! ## Programs -/

/-- The name of a group occurs in errors only. -/
theorem rfOutput_of_name {group : String} {channels : ChannelSet} {rf : Nat}
    (ok : rfOutput group channels = .ok rf) (other : String) :
    rfOutput other channels = .ok rf := by
  obtain ⟨index, only, rfl⟩ := rfOutput_eq_ok ok
  rw [rfOutput, only]
  rfl

/-- The limits of the sequencer that the compiler may use. -/
def Settings.SameLimits (settings other : Settings) : Prop :=
  settings.counterCount = other.counterCount ∧ settings.addressBits = other.addressBits

theorem Settings.SameLimits.topAddress_eq {settings other : Settings}
    (limits : settings.SameLimits other) : settings.topAddress = other.topAddress := by
  rw [topAddress, topAddress, checkLimits, checkLimits, limits.1, limits.2]

/-- The stages of two compilations of the same projection lead to the same program. -/
theorem Stages.same_program {options options' : CompileOptions} {element element' : Element}
    {group group' : String} {channels : ChannelSet} {program program' : Program}
    {projected projected' : Element} {rf rf' top top' : Nat}
    {graph graph' assigned assigned' : ProgramGraph} {layout layout' : Layout}
    (stages : Stages options element group channels program projected rf top graph assigned layout)
    (stages' : Stages options' element' group' channels program' projected' rf' top' graph'
      assigned' layout')
    (limits : options.settings.SameLimits options'.settings)
    (same : element.project channels = element'.project channels) : program = program' := by
  obtain rfl : top = top' :=
    Except.ok.inj ((limits.topAddress_eq ▸ stages.foundTop).symm.trans stages'.foundTop)
  obtain rfl : rf = rf' :=
    Except.ok.inj ((rfOutput_of_name stages.foundOutput group').symm.trans stages'.foundOutput)
  obtain rfl : projected = projected' :=
    Except.ok.inj ((same ▸ stages.foundProjected).symm.trans stages'.foundProjected)
  obtain rfl : graph = graph' :=
    Except.ok.inj (stages.foundGraph.symm.trans stages'.foundGraph)
  have counted := ProgramGraph.assignCounters_of_le stages.foundAssigned le_rfl group'
  rw [limits.1] at counted
  obtain rfl : assigned = assigned' := Except.ok.inj (counted.symm.trans stages'.foundAssigned)
  obtain rfl : layout = layout' :=
    Except.ok.inj (stages.foundLayout.symm.trans stages'.foundLayout)
  obtain ⟨_, emitted⟩ := stages.foundProgram
  obtain ⟨_, emitted'⟩ := stages'.foundProgram
  exact (Prod.mk.inj (Except.ok.inj (emitted.symm.trans emitted'))).1

/-- A successful compilation holds the program of every group under its name. -/
theorem lookup_compileGroups {options : CompileOptions} {element : Element} {group : String}
    {channels : List Channel} {entries : List (String × List Channel)}
    {programs : List (String × Program)}
    (ok : (compileGroups options element entries).programs = .ok programs)
    (listed : entries.lookup group = some channels) :
    ∃ program events, programs.lookup group = some program ∧
      compileGroup options element group (.ofList channels) = .ok (program, events) := by
  induction entries generalizing programs with
  | nil => cases listed
  | cons entry rest ih =>
    obtain ⟨name, first⟩ := entry
    rw [compileGroups] at ok
    split at ok
    · cases ok
    · next program events compiled =>
      dsimp only at ok
      cases okRest : (compileGroups options element rest).programs with
      | error error =>
        rw [okRest] at ok
        cases ok
      | ok others =>
        rw [okRest] at ok
        cases ok
        rw [List.lookup_cons] at listed ⊢
        split at listed
        · next same =>
          obtain rfl : group = name := eq_of_beq same
          cases listed
          exact ⟨program, events, rfl, compiled⟩
        · exact ih okRest listed

theorem lookup_compile {options : CompileOptions} {element : Element} {group : String}
    {channels : ChannelSet} {programs : List (String × Program)}
    (ok : (compile options element).programs = .ok programs)
    (listed : options.settings.groups.get? group = some channels) :
    ∃ program events, programs.lookup group = some program ∧
      compileGroup options element group channels = .ok (program, events) := by
  obtain ⟨list, found, rfl⟩ := Option.map_eq_some_iff.mp listed
  rw [compile] at ok
  split at ok
  · cases ok
  · exact lookup_compileGroups ok found

/-- What a sequence does to other channels changes neither the projection onto a group nor its
compilation, be it a program with its events or an error. The program of a group is therefore the
same in all compilations within the same limits, of all sequences that agree on its channels,
whatever the other groups and the names are. -/
theorem compile_isolates (channels : ChannelSet) (element : Element) :
    (element.erase channels).project channels = element.project channels ∧
    (∀ options group, compileGroup options (element.erase channels) group channels =
      compileGroup options element group channels) ∧
    ∀ {other : Element} {options options' : CompileOptions} {group group' : String}
      {programs programs' : List (String × Program)},
      element.erase channels = other.erase channels →
      options.settings.SameLimits options'.settings →
      (compile options element).programs = .ok programs →
      (compile options' other).programs = .ok programs' →
      options.settings.groups.get? group = some channels →
      options'.settings.groups.get? group' = some channels →
      ∃ program, programs.lookup group = some program ∧
        programs'.lookup group' = some program := by
  refine ⟨Element.project_erase element, fun options group => ?_, ?_⟩
  · rw [compileGroup, compileGroup, Element.project_erase]
  · intro other options options' group group' programs programs' agree limits ok ok' listed listed'
    obtain ⟨program, events, found, compiled⟩ := lookup_compile ok listed
    obtain ⟨program', events', found', compiled'⟩ := lookup_compile ok' listed'
    have same : element.project channels = other.project channels := by
      rw [← Element.project_erase element, agree, Element.project_erase]
    obtain ⟨_, _, _, _, _, _, stages⟩ := compileGroup_eq_ok compiled
    obtain ⟨_, _, _, _, _, _, stages'⟩ := compileGroup_eq_ok compiled'
    obtain rfl := stages.same_program stages' limits same
    exact ⟨program, found, found'⟩

/-- The first digital output is switched on, and a second later the second one set to a level. -/
def twoOutputs (level : Bool) : Element :=
  .sequence
    [.timestamp (.second (.ofLevel 0 (some true))), .timestamp (.second (.ofLevel 1 (some level)))]

/-- Boards for some groups, under the default limits. -/
def CompileOptions.ofGroups (groups : List (String × List Channel)) (diagnostics : Bool) :
    CompileOptions :=
  ⟨{ Settings.default with groups := .ofList groups }, diagnostics⟩

/-- The same board on its own, and under another name after a board that drives the second digital
output. -/
theorem compile_isolates_twoBoards :
    ∃ programs programs' program,
      (compile (.ofGroups [("board", [.rf 0, .digital 0])] true) (twoOutputs true)).programs
        = .ok programs ∧
      (compile (.ofGroups [("second", [.rf 1, .digital 1]), ("first", [.digital 0, .rf 0])] false)
        (twoOutputs false)).programs = .ok programs' ∧
      programs.lookup "board" = some program ∧ programs'.lookup "first" = some program := by
  obtain ⟨programs, ok⟩ := Except.exists_ok_of_isOk (show (compile
    (.ofGroups [("board", [.rf 0, .digital 0])] true) (twoOutputs true)).programs.isOk = true
    by decide +kernel)
  obtain ⟨programs', ok'⟩ := Except.exists_ok_of_isOk (show (compile
    (.ofGroups [("second", [.rf 1, .digital 1]), ("first", [.digital 0, .rf 0])] false)
    (twoOutputs false)).programs.isOk = true by decide +kernel)
  have agree : (twoOutputs true).erase (.ofList [.rf 0, .digital 0]) =
      (twoOutputs false).erase (.ofList [.rf 0, .digital 0]) := rfl
  have limits : ∀ groups groups' : List (String × List Channel),
      (CompileOptions.ofGroups groups true).settings.SameLimits
        (CompileOptions.ofGroups groups' false).settings := fun _ _ => ⟨rfl, rfl⟩
  have listed : (CompileOptions.ofGroups [("board", [.rf 0, .digital 0])] true).settings.groups.get?
      "board" = some (.ofList [.rf 0, .digital 0]) := by decide +kernel
  have listed' : (CompileOptions.ofGroups [("second", [.rf 1, .digital 1]),
      ("first", [.digital 0, .rf 0])] false).settings.groups.get? "first"
      = some (.ofList [.rf 0, .digital 0]) := by decide +kernel
  obtain ⟨program, found, found'⟩ := (compile_isolates (.ofList [.rf 0, .digital 0])
    (twoOutputs true)).2.2 agree (limits _ _) ok ok' listed listed'
  exact ⟨programs, programs', program, ok, ok', found, found'⟩

end PulseSequencer
