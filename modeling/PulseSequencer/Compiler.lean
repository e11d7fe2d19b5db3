import PulseSequencer.Element.Projection
import PulseSequencer.Program.Counters
import PulseSequencer.Program.Emission

/-!
# The compiler

From a sequence to the programs of the boards. For each channel group the sequence is projected onto
the channels of the group, turned into a program graph, given loop counters and addresses, and
emitted as instructions. Groups are compiled independently of one another.
-/

namespace PulseSequencer

/-- The settings of one compilation. -/
structure CompileOptions where
  settings : Settings
  /-- Whether details of the result are logged. -/
  diagnostics : Bool

/-- The event that describes a finished program. -/
def Program.summary (program : Program) (group : String) : LogEvent :=
  .compiled group program.words.length program.mainLength program.ranges.length
    (program.ranges.foldl (fun total range => total + range.size) 0)

/-- The program of one channel group, and what was logged. -/
def compileGroup (options : CompileOptions) (element : Element) (group : String)
    (channels : ChannelSet) : Except CompileError (Program × List LogEvent) := do
  let top ← options.settings.topAddress.mapError .settings
  let rf ← (rfOutput group channels).mapError .settings
  let projected ← (element.project channels).mapError .sequence
  let graph ← (ProgramGraph.ofElement projected).mapError .unsupported
  let graph ← graph.assignCounters group options.settings.counterCount.toNat
  let layout ← (graph.layout top).mapError (.memoryOverflow group)
  let (program, events) ← graph.emit layout rf top
  let details := if options.diagnostics then [program.summary group] else []
  return (program, events ++ details)

/-- The result of a compilation with all events up to its end or its failure. -/
structure Compilation where
  programs : Except CompileError (List (String × Program))
  events : List LogEvent

/-- Compiles channel groups in order. The first failure ends the compilation. -/
def compileGroups (options : CompileOptions) (element : Element) :
    List (String × List Channel) → Compilation
  | [] => ⟨.ok [], []⟩
  | (group, channels) :: rest =>
    match compileGroup options element group (.ofList channels) with
    | .error error => ⟨.error error, [.compiling group]⟩
    | .ok (program, events) =>
      let others := compileGroups options element rest
      ⟨others.programs.map ((group, program) :: ·), .compiling group :: events ++ others.events⟩

/-- The programs of all channel groups of the settings, in their order. -/
def compile (options : CompileOptions) (element : Element) : Compilation :=
  match options.settings.checkLimits with
  | .error error => ⟨.error (.settings error), []⟩
  | .ok () => compileGroups options element options.settings.groups.entries

end PulseSequencer
