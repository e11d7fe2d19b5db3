import PulseSequencer.Compiler
import PulseSequencer.Proofs.Clock
import PulseSequencer.Proofs.Element.Emittable
import PulseSequencer.Proofs.Program.Memory
import PulseSequencer.Proofs.Program.Rendering
import PulseSequencer.Proofs.Program.Traversal

/-!
# The compiler does not fail inside

The later stages check what the earlier ones have established: trip counts, counters, addresses and
the channels of timestamps. A projection passes all of these checks. Only the number of counters
and the size of the memory can stop its compilation.

Results:
1. `OutputWord.ofTimestamp_total`: a timestamp of the board has an output word.
2. `Emission.nodes_total`: nodes with counters and addresses have instructions.
3. `ProgramGraph.emit_total`: a graph with a layout has a program, and its memory is in order.
4. `ProgramGraph.spans_within`: every node has at least one address, below the top of the memory.
5. `ProgramGraph.emit_of_project`: the last stage of a compilation does not fail.
-/

namespace PulseSequencer

/-! ## Output words -/

theorem Clock.ticks_total (t : Timestamp) : ∃ ticks, Clock.ticks t.duration.value = .ok ticks := by
  obtain ⟨ticks, _, ok, _⟩ := Clock.ticks_spec t.within
  exact ⟨ticks, ok⟩

namespace AnalogUpdate

variable (update : AnalogUpdate)

theorem frequencyWord_total (hertz : Binary64) (isSet : update.intermediate = some hertz) :
    ∃ word, Tuning.frequencyWord hertz = .ok word := by
  obtain ⟨frequency, isFrequency, rfl⟩ := Option.map_eq_some_iff.mp isSet
  have within := update.frequency_within frequency isFrequency
  have finite := Binary64.isFinite_of_within rfl (by decide +kernel) within
  obtain ⟨evidence, ok⟩ := Quantity.check_total Tuning.frequency finite within
  exact ⟨_, by rw [Tuning.frequencyWord, ok]; rfl⟩

theorem phaseWord_total (radians : Binary64) (isSet : update.phase = some radians) :
    ∃ word, Tuning.phaseWord radians = .ok word :=
  ⟨_, by rw [Tuning.phaseWord, if_pos (update.phase_finite radians isSet)]⟩

theorem amplitudeWord_total (fraction : Binary64) (isSet : update.amplitude = some fraction) :
    ∃ word, Tuning.amplitudeWord fraction = .ok word := by
  have within := update.amplitude_within fraction isSet
  have finite := Binary64.isFinite_of_within rfl (by decide +kernel) within
  obtain ⟨evidence, ok⟩ := Quantity.check_total Tuning.amplitude finite within
  exact ⟨_, by rw [Tuning.amplitudeWord, ok]; rfl⟩

end AnalogUpdate

namespace OutputWord

theorem optional_total {α : Type} {quantize : Binary64 → Except RangeError α}
    {setting : Option Binary64} (total : ∀ x, setting = some x → ∃ word, quantize x = .ok word) :
    ∃ word, optional setting quantize = .ok word := by
  cases setting with
  | none => exact ⟨none, rfl⟩
  | some x =>
    obtain ⟨word, ok⟩ := total x rfl
    exact ⟨some word, by rw [optional, ok]⟩

/-- An update of a channel that the board drives is added to a word. -/
theorem apply_total {rf : Nat} {updates : UpdateMap} {channel : Channel} {update : Update}
    (found : updates.get? channel = some update)
    (driven : ∀ index, channel = .rf index → index.val = rf) (word : OutputWord) :
    ∃ result, word.apply rf channel update = .ok result := by
  cases channel with
  | rf index =>
    obtain ⟨analog, _, rfl⟩ := Option.map_eq_some_iff.mp found
    obtain ⟨frequency, okFrequency⟩ := optional_total analog.frequencyWord_total
    obtain ⟨phase, okPhase⟩ := optional_total analog.phaseWord_total
    obtain ⟨amplitude, okAmplitude⟩ := optional_total analog.amplitudeWord_total
    refine ⟨{ word with frequency, phase, amplitude }, ?_⟩
    rw [apply, if_pos (driven index rfl), okFrequency, Except.ok_bind, okPhase, Except.ok_bind,
      okAmplitude]
    rfl
  | digital index =>
    obtain ⟨digital, _, rfl⟩ := Option.map_eq_some_iff.mp found
    rw [apply]
    cases digital.level with
    | none => exact ⟨word, rfl⟩
    | some level => exact ⟨_, rfl⟩

/-- A timestamp has an output word on a board that drives all its RF channels. -/
theorem ofTimestamp_total {t : Timestamp} {rf : Nat}
    (driven : ∀ index, Channel.rf index ∈ t.channels → index.val = rf) :
    ∃ word, ofTimestamp t rf = .ok word := by
  obtain ⟨ticks, ok⟩ := Clock.ticks_total t
  rw [ofTimestamp, ok]
  refine Except.exists_ok_foldlM _ ?_
  rintro ⟨channel, update⟩ present word
  obtain ⟨other, _, found⟩ := List.mem_filterMap.mp present
  obtain ⟨update', found, same⟩ := Option.map_eq_some_iff.mp found
  cases same
  refine apply_total found (fun index isRf => driven index ?_) word
  rw [Timestamp.channels, ← isRf, UpdateMap.mem_channels, found]
  rfl

end OutputWord

/-- The board of a group drives every RF channel of the group. -/
theorem rfOutput_single {group : String} {channels : ChannelSet} {rf : Nat}
    (ok : rfOutput group channels = .ok rf) {index : Fin 4}
    (present : Channel.rf index ∈ channels) : index.val = rf := by
  have inGroup : Channel.rf index ∈ channels.toList.filter Channel.isRf :=
    List.mem_filter.mpr ⟨ChannelSet.mem_toList.mpr present, rfl⟩
  unfold rfOutput at ok
  split at ok
  · next channel only =>
    cases ok
    rw [only, List.mem_singleton] at inGroup
    rw [← inGroup]
    rfl
  · cases ok
  · cases ok

theorem rfOutput_total {channels : ChannelSet} (group : String)
    (oneRf : (channels.toList.filter Channel.isRf).length = 1) :
    ∃ rf, rfOutput group channels = .ok rf := by
  obtain ⟨channel, only⟩ := List.length_eq_one_iff.mp oneRf
  exact ⟨channel.index, by rw [rfOutput, only]⟩

/-- A timestamp on the channels of a group has an output word on the board of the group. -/
theorem OutputWord.ofTimestamp_inside {group : String} {channels : ChannelSet} {rf : Nat}
    (ok : rfOutput group channels = .ok rf) (t : Timestamp) (inside : t.Inside channels) :
    ∃ word, ofTimestamp t rf = .ok word :=
  ofTimestamp_total fun _ updated => rfOutput_single ok (inside _ updated)

/-! ## Counters -/

namespace Node

variable {valid : Timestamp → Prop}

mutual

theorem emittable_bare : ∀ {node : Node}, node.bare.Emittable valid ↔ node.Emittable valid
  | .block _ => Iff.rfl
  | .loop _ _ _ => and_congr_right fun _ => emittableAll_bareAll
  | .call _ => Iff.rfl

theorem emittableAll_bareAll : ∀ {nodes : List Node},
    EmittableAll valid (bareAll nodes) ↔ EmittableAll valid nodes
  | [] => Iff.rfl
  | _ :: _ => and_congr emittable_bare emittableAll_bareAll

end

/-- Counters do not matter to whether nodes can be played. -/
theorem EmittableAll.of_bareAll {nodes result : List Node} (emittable : EmittableAll valid nodes)
    (same : bareAll result = bareAll nodes) : EmittableAll valid result := by
  rw [← emittableAll_bareAll, same, emittableAll_bareAll]
  exact emittable

end Node

/-! ## Emission -/

namespace Emission

/-- A board with an output word for every valid timestamp, and with a place in memory and the
counter of every subroutine. -/
structure Board.Serves (board : Board) (valid : Timestamp → Prop) (counterOf : Nat → Option Nat) :
    Prop where
  word : ∀ t, valid t → ∃ word, OutputWord.ofTimestamp t board.rf = .ok word
  target : ∀ index counter, counterOf index = some counter →
    ∃ target, board.targets[index]? = some target ∧ target.counter = counter ∧
      target.address ≤ maxAddress

theorem toNat_counter_lt {counter limit : Nat} (below : counter < limit)
    (few : limit ≤ hardwareCounters) : counter.toUInt8.toNat < hardwareCounters := by
  unfold hardwareCounters at *
  rw [Nat.toUInt8, UInt8.toNat_ofNat']
  omega

section

variable {board : Board} {valid : Timestamp → Prop} {counterOf : Nat → Option Nat}

theorem block_total (serves : board.Serves valid counterOf) {timestamps : List Timestamp}
    (allValid : ∀ t ∈ timestamps, valid t) (start : Nat) :
    ∃ emission, block board start timestamps = .ok emission := by
  have each : ∀ pair ∈ timestamps.zipIdx start,
      ∃ played, timestamp board pair.1 pair.2 = .ok played := by
    intro pair present
    obtain ⟨word, ok⟩ := serves.word pair.1 (allValid pair.1 (List.fst_mem_of_mem_zipIdx present))
    exact ⟨_, by rw [timestamp, ok]⟩
  obtain ⟨played, ok⟩ := Except.exists_ok_mapM each
  exact ⟨_, by rw [block, ok]; rfl⟩

theorem call_total (serves : board.Serves valid counterOf) {start limit index : Nat}
    (fits : (Node.call index).Fits counterOf limit) (few : limit ≤ hardwareCounters)
    (inside : start + Node.callLength ≤ maxAddress) :
    ∃ emission, call board start index = .ok emission := by
  obtain ⟨counter, known, below⟩ := fits
  obtain ⟨target, found, rfl, address⟩ := serves.target index counter known
  have control := Instruction.callControl_eq_ok_iff.mpr
    ⟨toNat_counter_lt below few, inside, address, rfl⟩
  exact ⟨_, by rw [call, found]; dsimp only; rw [control]⟩

mutual

theorem node_total (serves : board.Serves valid counterOf) {node : Node} {start limit : Nat}
    (emittable : node.Emittable valid) (fits : node.Fits counterOf limit)
    (few : limit ≤ hardwareCounters) (inside : start + node.length ≤ maxAddress) :
    ∃ emission, Emission.node board start node = .ok emission := by
  match node, emittable, fits, inside with
  | .block timestamps, emittable, _, _ =>
    rw [Emission.node]
    exact block_total serves emittable.2 start
  | .loop times counter body, emittable, fits, inside =>
    rw [Node.length, Node.loopOverhead] at inside
    have fewer : counter ≤ hardwareCounters := (fits.1.trans_le few).le
    have insideBody : start + 3 + Node.lengthAll body ≤ maxAddress := by omega
    obtain ⟨inner, ok⟩ := nodes_total serves emittable.2 fits.2 fewer insideBody
    have control := Instruction.loopControl_eq_ok_iff.mpr
      ⟨emittable.1, toNat_counter_lt fits.1 few,
        (show start + Node.lengthAll body + 4 ≤ maxAddress by omega), rfl⟩
    exact ⟨_, by rw [Emission.node, ok, Except.ok_bind, loop, control]⟩
  | .call index, _, fits, inside =>
    rw [Emission.node]
    exact call_total serves fits few inside

theorem nodes_total (serves : board.Serves valid counterOf) {nodes : List Node}
    {start limit : Nat} (emittable : Node.EmittableAll valid nodes)
    (fits : Node.FitsAll counterOf limit nodes) (few : limit ≤ hardwareCounters)
    (inside : start + Node.lengthAll nodes ≤ maxAddress) :
    ∃ emission, Emission.nodes board start nodes = .ok emission := by
  match nodes, emittable, fits, inside with
  | [], _, _, _ => exact ⟨_, rfl⟩
  | node :: rest, emittable, fits, inside =>
    rw [Node.lengthAll] at inside
    have insideFirst : start + node.length ≤ maxAddress := by omega
    have insideRest : start + node.length + Node.lengthAll rest ≤ maxAddress := by omega
    obtain ⟨first, ok⟩ := node_total serves emittable.1 fits.1 few insideFirst
    obtain ⟨others, okRest⟩ := nodes_total serves emittable.2 fits.2 few insideRest
    exact ⟨_, by rw [Emission.nodes, ok, Except.ok_bind, okRest]; rfl⟩

end

/-- A subroutine that is emitted in its place. -/
structure Fitting (valid : Timestamp → Prop) (counterOf : Nat → Option Nat) (routine : Routine)
    (range : AddressRange) : Prop where
  emittable : Node.EmittableAll valid routine.body
  fits : Node.FitsAll counterOf routine.counter routine.body
  few : routine.counter < hardwareCounters
  inside : range.first + Node.lengthAll routine.body ≤ maxAddress

theorem routine_total (serves : board.Serves valid counterOf) {r : Routine} {range : AddressRange}
    (fitting : Fitting valid counterOf r range) :
    ∃ emission, routine board r range = .ok emission := by
  obtain ⟨body, ok⟩ := nodes_total serves fitting.emittable fitting.fits fitting.few.le
    fitting.inside
  have closing := Instruction.jumpOn_eq_ok_iff.mpr ⟨toNat_counter_lt fitting.few le_rfl, rfl⟩
  exact ⟨_, by rw [routine, ok, Except.ok_bind, closing]; rfl⟩

theorem routines_total (serves : board.Serves valid counterOf)
    {placed : List (Routine × AddressRange)}
    (fitting : ∀ pair ∈ placed, Fitting valid counterOf pair.1 pair.2) :
    ∃ emission, routines board placed = .ok emission := by
  induction placed with
  | nil => exact ⟨_, rfl⟩
  | cons pair rest ih =>
    obtain ⟨first, later⟩ := List.forall_mem_cons.mp fitting
    obtain ⟨emission, ok⟩ := routine_total serves first
    obtain ⟨others, okRest⟩ := ih later
    exact ⟨_, by rw [routines, ok, Except.ok_bind, okRest]; rfl⟩

end

end Emission

/-! ## Programs -/

/-- A graph whose nodes can be played, with counters of the hardware. -/
structure ProgramGraph.Ready (graph : ProgramGraph) (valid : Timestamp → Prop) : Prop where
  main : Node.EmittableAll valid graph.main
  fits : Node.FitsAll (counterOf graph.routines) hardwareCounters graph.main
  body : ∀ routine ∈ graph.routines, Node.EmittableAll valid routine.body
  fitsBody : ∀ routine ∈ graph.routines,
    Node.FitsAll (counterOf graph.routines) routine.counter routine.body
  counter : ∀ routine ∈ graph.routines, routine.counter < hardwareCounters

namespace ProgramGraph

variable {graph : ProgramGraph} {layout : Layout} {valid : Timestamp → Prop} {rf top : Nat}

/-- Every subroutine of a layout has a place in memory. -/
theorem serves_board (laid : graph.layout top = .ok layout) (topLe : top ≤ maxAddress)
    (word : ∀ t, valid t → ∃ word, OutputWord.ofTimestamp t rf = .ok word) :
    (graph.board layout rf).Serves valid (counterOf graph.routines) := by
  obtain ⟨_, lowest, placed, _⟩ := layout_eq_ok laid
  refine ⟨word, fun index counter known => ?_⟩
  obtain ⟨routine, found, rfl⟩ := Option.map_eq_some_iff.mp known
  obtain ⟨range, pair⟩ := placed.exists_range found
  obtain ⟨_, last, below⟩ := placed.range_of_mem (List.mem_of_getElem? pair)
  refine ⟨⟨range.first, routine.counter⟩, ?_, rfl, ?_⟩
  · rw [board, List.getElem?_map, pair]
    rfl
  · show range.first ≤ maxAddress
    omega

/-- A graph that is ready and has a layout has a program. -/
theorem emit_total (ready : graph.Ready valid) (laid : graph.layout top = .ok layout)
    (topLe : top ≤ maxAddress)
    (word : ∀ t, valid t → ∃ word, OutputWord.ofTimestamp t rf = .ok word) :
    ∃ result, graph.emit layout rf top = .ok result := by
  have serves := serves_board laid topLe word
  obtain ⟨length, lowest, placed, below⟩ := layout_eq_ok laid
  have lowestLe := placed.lowest_le
  obtain ⟨main, okMain⟩ := Emission.nodes_total serves ready.main ready.fits le_rfl
    (show 0 + Node.lengthAll graph.main ≤ maxAddress by omega)
  have fitting : ∀ pair ∈ graph.routines.zip layout.ranges,
      Emission.Fitting valid (counterOf graph.routines) pair.1 pair.2 := by
    rintro ⟨routine, range⟩ present
    have inTable := (List.of_mem_zip present).1
    obtain ⟨_, last, belowTop⟩ := placed.range_of_mem present
    exact ⟨ready.body routine inTable, ready.fitsBody routine inTable,
      ready.counter routine inTable,
      by show range.first + Node.lengthAll routine.body ≤ maxAddress; omega⟩
  obtain ⟨routines, okRoutines⟩ := Emission.routines_total serves fitting
  have emitted : Emitted graph layout rf top _ main routines :=
    ⟨okMain, okRoutines, checkMemory_of_layout laid okMain okRoutines, rfl⟩
  exact ⟨_, emitted.emit_eq⟩

end ProgramGraph

/-! ## Addresses -/

namespace Node

mutual

/-- The addresses of a node that starts at an address, and of all nodes inside of it, with their
places. -/
def placedSpans (place : Place) (start : Nat) : Node → List (Place × AddressRange)
  | .block timestamps => [(place, ⟨start, start + timestamps.length - 1⟩)]
  | .loop _ _ body =>
    (place, ⟨start, start + (lengthAll body + loopOverhead) - 1⟩) ::
      placedSpansAll place 0 (start + 3) body
  | .call _ => [(place, ⟨start, start + callLength - 1⟩)]

def placedSpansAll (around : Place) (index start : Nat) : List Node → List (Place × AddressRange)
  | [] => []
  | node :: rest =>
    node.placedSpans (index :: around) start
      ++ placedSpansAll around (index + 1) (start + node.length) rest

end

mutual

theorem map_fst_placedSpans (place : Place) (start : Nat) (node : Node) :
    (node.placedSpans place start).map Prod.fst = node.places place := by
  match node with
  | .block timestamps => rfl
  | .call routine => rfl
  | .loop times counter body =>
    rw [placedSpans, List.map_cons, map_fst_placedSpansAll place 0 (start + 3) body, places]

theorem map_fst_placedSpansAll (around : Place) (index start : Nat) (nodes : List Node) :
    (placedSpansAll around index start nodes).map Prod.fst = placesAll around index nodes := by
  match nodes with
  | [] => rfl
  | node :: rest =>
    rw [placedSpansAll, List.map_append, map_fst_placedSpans, map_fst_placedSpansAll, placesAll]

end

mutual

/-- A node that can be played and all nodes inside of it have addresses, between its own ends. -/
theorem placedSpans_between {valid : Timestamp → Prop} {node : Node} {place : Place} {start : Nat}
    (emittable : node.Emittable valid) {pair : Place × AddressRange}
    (present : pair ∈ node.placedSpans place start) :
    pair.2.first ≤ pair.2.last ∧ pair.2.last < start + node.length := by
  match node, emittable, present with
  | .block timestamps, emittable, present =>
    have positive := List.length_pos_iff.mpr emittable.1
    rw [placedSpans, List.mem_singleton] at present
    rw [present, length]
    dsimp only
    omega
  | .loop times counter body, emittable, present =>
    rw [placedSpans, List.mem_cons] at present
    rw [length, loopOverhead]
    rcases present with rfl | inBody
    · simp only [loopOverhead]
      omega
    · have := placedSpansAll_between emittable.2 inBody
      omega
  | .call index, _, present =>
    rw [placedSpans, List.mem_singleton] at present
    rw [present, length, callLength]
    dsimp only
    omega

theorem placedSpansAll_between {valid : Timestamp → Prop} {nodes : List Node} {around : Place}
    {index start : Nat} (emittable : EmittableAll valid nodes) {pair : Place × AddressRange}
    (present : pair ∈ placedSpansAll around index start nodes) :
    pair.2.first ≤ pair.2.last ∧ pair.2.last < start + lengthAll nodes := by
  match nodes, emittable, present with
  | node :: rest, emittable, present =>
    rw [placedSpansAll, List.mem_append] at present
    rw [lengthAll]
    rcases present with inFirst | inRest
    · have := placedSpans_between emittable.1 inFirst
      omega
    · have := placedSpansAll_between emittable.2 inRest
      omega

end

end Node

namespace ProgramGraph

/-- The addresses of all subroutines, and of all nodes at any depth. -/
def spans (graph : ProgramGraph) (layout : Layout) : List AddressRange :=
  (Node.placedSpansAll [] 0 0 graph.main).map Prod.snd ++
    (graph.routines.zip layout.ranges).flatMap fun (routine, range) =>
      range :: (Node.placedSpansAll [] 0 range.first routine.body).map Prod.snd

/-- Every subroutine and every node has at least one address, and all lie below the top. -/
theorem spans_within {graph : ProgramGraph} {layout : Layout} {valid : Timestamp → Prop} {top : Nat}
    (ready : graph.Ready valid) (laid : graph.layout top = .ok layout) {span : AddressRange}
    (present : span ∈ graph.spans layout) : span.first ≤ span.last ∧ span.last < top := by
  obtain ⟨length, lowest, placed, below⟩ := layout_eq_ok laid
  have lowestLe := placed.lowest_le
  rcases List.mem_append.mp present with inMain | inRoutines
  · obtain ⟨pair, placedHere, rfl⟩ := List.mem_map.mp inMain
    have := Node.placedSpansAll_between ready.main placedHere
    omega
  · obtain ⟨⟨routine, range⟩, inTable, inRange⟩ := List.mem_flatMap.mp inRoutines
    obtain ⟨_, last, belowTop⟩ := placed.range_of_mem inTable
    rcases List.mem_cons.mp inRange with rfl | inBody
    · omega
    · obtain ⟨pair, placedHere, rfl⟩ := List.mem_map.mp inBody
      have := Node.placedSpansAll_between (ready.body routine (List.of_mem_zip inTable).1)
        placedHere
      omega

end ProgramGraph

/-! ## Compilation -/

theorem Settings.topAddress_total {settings : Settings}
    (counters : 1 ≤ settings.counterCount.toNat ∧ settings.counterCount.toNat ≤ hardwareCounters)
    (bits : 1 ≤ settings.addressBits.toNat ∧ settings.addressBits.toNat ≤ addressWidth) :
    ∃ top, settings.topAddress = .ok top := by
  refine ⟨1 <<< settings.addressBits.toNat - 1, ?_⟩
  rw [topAddress, checkLimits, if_neg (by omega), if_neg (by omega)]
  rfl

/-- Nodes that can be played are ready once they have counters of the hardware. -/
theorem ProgramGraph.Assigned.ready {graph result : ProgramGraph} {valid : Timestamp → Prop}
    {limit : Nat} (assigned : Assigned graph result limit) (few : limit ≤ hardwareCounters)
    (main : Node.EmittableAll valid graph.main)
    (body : ∀ routine ∈ graph.routines, Node.EmittableAll valid routine.body) :
    result.Ready valid := by
  have origin : ∀ routine ∈ result.routines, ∃ original ∈ graph.routines,
      Routine.AssignedFrom (counterOf result.routines) limit original routine := by
    intro routine present
    obtain ⟨index, found⟩ := List.mem_iff_getElem?.mp present
    obtain ⟨original, foundOriginal, assignedFrom⟩ := assigned.routine index routine found
    exact ⟨original, List.mem_of_getElem? foundOriginal, assignedFrom⟩
  refine ⟨main.of_bareAll assigned.main, assigned.fits.mono few, fun routine present => ?_,
    fun routine present => ?_, fun routine present => ?_⟩ <;>
    obtain ⟨original, inGraph, assignedFrom⟩ := origin routine present
  · exact (body original inGraph).of_bareAll assignedFrom.body
  · exact assignedFrom.fits
  · exact assignedFrom.below.trans_le few

namespace Element

variable {element projected : Element} {group : String} {channels : ChannelSet}
  {graph assigned : ProgramGraph} {limit : Nat}

/-- The graph of a projection can be played once it has counters of the hardware. -/
theorem ready_of_project (foundProjected : element.project channels = .ok projected)
    (foundGraph : ProgramGraph.ofElement projected = .ok graph)
    (foundAssigned : graph.assignCounters group limit = .ok assigned)
    (hardware : limit ≤ hardwareCounters) : assigned.Ready (Timestamp.Inside channels) := by
  have noTrigger := hasTrigger_of_supported (ProgramGraph.supported_of_ofElement foundGraph)
  obtain ⟨graph', foundGraph', main, body⟩ :=
    ProgramGraph.ofElement_total (project_emittable foundProjected) noTrigger
  obtain rfl : graph = graph' := Except.ok.inj (foundGraph.symm.trans foundGraph')
  obtain tooMany | ⟨assigned', foundAssigned', counters⟩ :=
    (ProgramGraph.ofElement_spec foundGraph).assignCounters group limit
  · rw [foundAssigned] at tooMany
    cases tooMany
  · obtain rfl : assigned = assigned' :=
      Except.ok.inj (foundAssigned.symm.trans foundAssigned')
    exact counters.ready hardware main body

end Element

/-- The last stage does not fail once the earlier ones have succeeded, so a compilation that fails
has nothing to log. -/
theorem ProgramGraph.emit_of_project {element projected : Element} {group : String}
    {channels : ChannelSet} {graph assigned : ProgramGraph} {layout : Layout} {limit rf top : Nat}
    (foundOutput : rfOutput group channels = .ok rf)
    (foundProjected : element.project channels = .ok projected)
    (foundGraph : ofElement projected = .ok graph)
    (foundAssigned : graph.assignCounters group limit = .ok assigned)
    (foundLayout : assigned.layout top = .ok layout)
    (hardware : limit ≤ hardwareCounters) (inside : top ≤ maxAddress) :
    ∃ result, assigned.emit layout rf top = .ok result :=
  emit_total (Element.ready_of_project foundProjected foundGraph foundAssigned hardware)
    foundLayout inside (OutputWord.ofTimestamp_inside foundOutput)

end PulseSequencer
