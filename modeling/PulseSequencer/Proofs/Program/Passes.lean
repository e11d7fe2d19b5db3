import PulseSequencer.Proofs.Program.Playback
import PulseSequencer.Proofs.Program.Storage

/-!
# The passes of the compiler

The compiler with every pass as a loop over a stack: the graph is built from a list of tasks,
counters are found in one pass and written back in another, addresses are written into the nodes,
and the instructions are stored where the nodes say. Each of these passes checks what the ones
before it have left, and fails in its own way: a body may be missing or left open, counters may be
out of step with the loops, a number may not fit where it is stored, an address may be stored twice
or not at all.

None of these failures is ever reached, so the passes come to the result of `compileGroup`.

Results:
1. `Passes.compileGroup_eq`: the passes and the recursive stages have the same results.
2. `compileGroup_outcome`: too many counters and a full memory are the only failures.
-/

namespace PulseSequencer

/-- The error by which a failure to build a graph is reported. -/
def Worklist.Failure.error : Failure → CompileError
  | .unsupported feature => .unsupported feature
  | .noOpenBody => .internal .noOpenBody
  | .unknownRoutine index => .internal (.unknownEntry index)
  | .unbalanced => .internal .unbalancedBodies

namespace Passes

/-- The program of one channel group, and what was logged. -/
def compileGroup (options : CompileOptions) (element : Element) (group : String)
    (channels : ChannelSet) : Except PassFailure (Program × List LogEvent) := do
  let top ← options.settings.topAddress.mapError fun error => .reported (.settings error)
  let rf ← (rfOutput group channels).mapError fun error => .reported (.settings error)
  let projected ← (element.project channels).mapError fun error => .reported (.sequence error)
  let graph ← (Worklist.build projected).mapError fun failure => .reported failure.error
  let graph ← Allocation.assignCounters graph group options.settings.counterCount.toNat
  let placed ← Placement.layout graph group top
  let (program, events) ← Storage.emit graph placed rf top
  let details := if options.diagnostics then [program.summary group] else []
  return (program, events ++ details)

/-- Once a graph has its counters, the passes find the addresses of the layout and store the program
of the emission. -/
theorem place_and_store {element projected : Element} {group : String} {channels : ChannelSet}
    {graph assigned : ProgramGraph} {limit rf top : Nat}
    (foundOutput : rfOutput group channels = .ok rf)
    (foundProjected : element.project channels = .ok projected)
    (foundGraph : ProgramGraph.ofElement projected = .ok graph)
    (foundAssigned : graph.assignCounters group limit = .ok assigned)
    (hardware : limit ≤ hardwareCounters) (inside : top ≤ maxAddress) :
    (Placement.layout assigned group top >>= (Storage.emit assigned · rf top))
      = ((assigned.layout top).mapError (.memoryOverflow group)
          >>= (assigned.emit · rf top)).mapError .reported := by
  have agrees : Placement.Agrees assigned group top := by
    obtain ⟨_, failed⟩ | ⟨assigned', _, found, byHeight⟩ :=
      ProgramGraph.assignCounters_of_height foundGraph group limit
    · cases foundAssigned.symm.trans failed
    · obtain rfl : assigned = assigned' := Except.ok.inj (foundAssigned.symm.trans found)
      exact Placement.agrees byHeight.solid group inside
  cases foundLayout : assigned.layout top with
  | error region =>
    rw [agrees.refused region foundLayout]
    rfl
  | ok layout =>
    obtain ⟨inMain, inRoutines, placed, holdsMain, holdsRoutines⟩ :=
      agrees.placed layout foundLayout
    obtain ⟨⟨program, events⟩, emitted⟩ := ProgramGraph.emit_of_project foundOutput foundProjected
      foundGraph foundAssigned foundLayout hardware inside
    have small : top < UInt16.size := Nat.lt_of_le_of_lt inside (by decide)
    rw [placed, Except.ok_bind, Storage.emit_eq emitted small holdsMain holdsRoutines]
    show _ = (assigned.emit layout rf top).mapError _
    rw [emitted]
    rfl

/-- The passes succeed with the same program, or fail with the same error, for every input. -/
theorem compileGroup_eq (options : CompileOptions) (element : Element) (group : String)
    (channels : ChannelSet) :
    compileGroup options element group channels
      = (PulseSequencer.compileGroup options element group channels).mapError .reported := by
  rw [compileGroup, PulseSequencer.compileGroup]
  cases foundTop : options.settings.topAddress with
  | error error => rfl
  | ok top =>
  cases foundOutput : rfOutput group channels with
  | error error => rfl
  | ok rf =>
  cases foundProjected : element.project channels with
  | error error => rfl
  | ok projected =>
  simp only [Except.mapError_ok, Except.ok_bind]
  rw [Worklist.build_eq]
  cases foundGraph : ProgramGraph.ofElement projected with
  | error feature => rfl
  | ok graph =>
  simp only [Except.mapError_ok, Except.ok_bind]
  rw [(ProgramGraph.ofElement_spec foundGraph).allocation_eq]
  cases foundAssigned : graph.assignCounters group options.settings.counterCount.toNat with
  | error error => rfl
  | ok assigned =>
  obtain ⟨hardware, inside⟩ := Settings.topAddress_eq_ok foundTop
  have same := place_and_store foundOutput foundProjected foundGraph foundAssigned hardware inside
  simp only [Except.mapError_ok, Except.ok_bind]
  rw [← bind_assoc, same, ← bind_assoc]
  conv_rhs => rw [Except.mapError_bind]
  rfl

end Passes

/-- For a group with one RF channel and settings within the limits of the hardware, a projection
without trigger waits has a program, or needs too many counters, or does not fit the memory. The
passes come to the same result, so they reach none of the other errors that they check for. The
graph is built, with no body missing or left open. No node of a graph with a layout is without an
address or has one that does not fit. -/
theorem compileGroup_outcome {options : CompileOptions} {element projected : Element}
    {group : String} {channels : ChannelSet}
    (counters : 1 ≤ options.settings.counterCount.toNat ∧
      options.settings.counterCount.toNat ≤ hardwareCounters)
    (bits : 1 ≤ options.settings.addressBits.toNat ∧
      options.settings.addressBits.toNat ≤ addressWidth)
    (oneRf : (channels.toList.filter Channel.isRf).length = 1)
    (ok : element.project channels = .ok projected) (noTrigger : projected.hasTrigger = false) :
    ((∃ result, compileGroup options element group channels = .ok result) ∨
      compileGroup options element group channels
        = .error (.tooManyCounters group options.settings.counterCount.toNat) ∨
      ∃ region, compileGroup options element group channels
        = .error (.memoryOverflow group region)) ∧
    Passes.compileGroup options element group channels
      = (compileGroup options element group channels).mapError .reported ∧
    ∃ graph, Worklist.build projected = .ok graph ∧ ProgramGraph.ofElement projected = .ok graph ∧
      Allocation.assignCounters graph group options.settings.counterCount.toNat
        = (graph.assignCounters group options.settings.counterCount.toNat).mapError .reported ∧
      ∀ top assigned layout, options.settings.topAddress = .ok top →
        graph.assignCounters group options.settings.counterCount.toNat = .ok assigned →
        assigned.layout top = .ok layout →
        ∀ span ∈ assigned.spans layout, span.first ≤ span.last ∧ span.last < maxAddress := by
  obtain ⟨top, okTop⟩ := Settings.topAddress_total counters bits
  have topLe := (Settings.topAddress_eq_ok okTop).2
  obtain ⟨rf, okRf⟩ := rfOutput_total group oneRf
  obtain ⟨graph, okGraph, _⟩ :=
    ProgramGraph.ofElement_total (Element.project_emittable ok) noTrigger
  have graphOf := ProgramGraph.ofElement_spec okGraph
  have built : Worklist.build projected = .ok graph := by
    rw [Worklist.build_eq, okGraph]
    rfl
  refine ⟨?_, Passes.compileGroup_eq options element group channels, graph, built, okGraph,
    graphOf.allocation_eq group _, ?_⟩
  · simp only [compileGroup, okTop, okRf, ok, okGraph, Except.mapError_ok, Except.ok_bind]
    rcases graphOf.assignCounters group options.settings.counterCount.toNat with
      tooMany | ⟨assigned, okAssigned, _⟩
    · rw [tooMany]
      exact .inr (.inl rfl)
    · rw [okAssigned, Except.ok_bind]
      cases laid : assigned.layout top with
      | error region => exact .inr (.inr ⟨region, rfl⟩)
      | ok layout =>
        obtain ⟨⟨program, events⟩, okEmitted⟩ :=
          ProgramGraph.emit_of_project okRf ok okGraph okAssigned laid counters.2 topLe
        rw [Except.mapError_ok, Except.ok_bind, okEmitted]
        exact .inl ⟨_, rfl⟩
  · intro top' assigned layout okTop' okAssigned laid span present
    obtain rfl := Except.ok.inj (okTop.symm.trans okTop')
    have ready := Element.ready_of_project ok okGraph okAssigned counters.2
    have within := ProgramGraph.spans_within ready laid present
    exact ⟨within.1, within.2.trans_le topLe⟩

/-- A level that is switched on in a loop and off by a subroutine, and kept for a long time
afterwards. -/
def pulseTrain : Element :=
  .sequence
    [.repeated (.sequence
      [.timestamp (.second (.ofLevel 0 (some true))),
       .subroutine (.timestamp (.second (.ofLevel 0 (some false))))]) 3,
     .subroutine (.timestamp (.second (.ofLevel 0 (some false)))),
     .repeated (.timestamp .longestDead) 2]

theorem compileGroup_outcome_pulseTrain :
    ∃ projected graph assigned layout result,
      pulseTrain.project (.ofList [.rf 0, .digital 0]) = .ok projected ∧
      projected.hasTrigger = false ∧
      Worklist.build projected = .ok graph ∧
      Allocation.assignCounters graph "board" 8 = .ok assigned ∧
      assigned.layout 31 = .ok layout ∧
      (∀ span ∈ assigned.spans layout, span.first ≤ span.last ∧ span.last < maxAddress) ∧
      compileGroup ⟨{ Settings.default with addressBits := 5 }, false⟩ pulseTrain "board"
        (.ofList [.rf 0, .digital 0]) = .ok result ∧
      Passes.compileGroup ⟨{ Settings.default with addressBits := 5 }, false⟩ pulseTrain "board"
        (.ofList [.rf 0, .digital 0]) = .ok result := by
  have isOk : (compileGroup ⟨{ Settings.default with addressBits := 5 }, false⟩ pulseTrain "board"
      (.ofList [.rf 0, .digital 0])).isOk = true := by decide +kernel
  obtain ⟨⟨program, events⟩, compiled⟩ := Except.exists_ok_of_isOk isOk
  obtain ⟨projected, rf, top, graph, assigned, layout, stages⟩ := compileGroup_eq_ok compiled
  have top_eq : top = 31 := (Except.ok.inj stages.foundTop).symm
  subst top_eq
  have waits : (pulseTrain.project (.ofList [.rf 0, .digital 0])).toOption.map Element.hasTrigger
      = some false := by decide +kernel
  rw [stages.foundProjected] at waits
  have noTrigger : projected.hasTrigger = false := Option.some.inj waits
  obtain ⟨_, passes, graph', built, foundGraph, counted, spans⟩ :=
    @compileGroup_outcome ⟨{ Settings.default with addressBits := 5 }, false⟩ pulseTrain projected
      "board" (.ofList [.rf 0, .digital 0]) (by decide) (by decide) (by decide +kernel)
      stages.foundProjected noTrigger
  obtain rfl : graph = graph' := Except.ok.inj (stages.foundGraph.symm.trans foundGraph)
  refine ⟨projected, graph, assigned, layout, (program, events), stages.foundProjected, noTrigger,
    built, ?_, stages.foundLayout, ?_, compiled, ?_⟩
  · exact counted.trans (congrArg _ stages.foundAssigned)
  · exact spans 31 assigned layout stages.foundTop stages.foundAssigned stages.foundLayout
  · exact passes.trans (congrArg _ compiled)

end PulseSequencer
