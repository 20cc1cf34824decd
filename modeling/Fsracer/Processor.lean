/-
  File:      Fsracer/Processor.lean
  Subject:   THE PROGRAMS (lib/Processor.h, lib/Processor.cpp, tools/fsracer/main.cpp,
             tools/drfsracer/drfsracer.cpp, lib/OutWriter.h): from the command line and a trace
             to what is written.

  Both programs set a `Processor` up from the command line and let it analyse a trace: fsracer
  one that it reads from a file, drfsracer one that it has just collected. A new `CLIArgs` does
  not initialise `dump_trace`, and the constructor that drfsracer uses does not initialise
  `fault_detector`; what they happen to hold are parameters here.

  * **`process_ending`** -- when the processing aborts, fails an assertion or runs into undefined
    behaviour; the casts of `InitFaultDetector` are right for every command line that is
    accepted;
  * **`process_race`** -- what is written in mode `fault`, and where, the messages of
    `debug::info` with the times that they show among it;
  * **`online_offline`** -- drfsracer writes what fsracer writes for the recorded trace.

  NOT here: standard error, and what a file holds when two outputs go to it.
-/
import Mathlib
import Fsracer.Verdicts
import Fsracer.Dot
import Fsracer.DumpCsv

namespace Fsracer

open Detector

/-! ## 1. Formats -/

/-- `GraphFormat`. -/
inductive GraphFormat where
  | dot
  | csv
  deriving DecidableEq, Repr

/-- `PrintGraph`; `entries` is the map of nodes in the order of its iterator. -/
def printGraph (format : GraphFormat) (g : DepGraph) (entries : List (String × EventInfo)) :
    String :=
  match format with
  | .dot => printDot g entries
  | .csv => printGraphCSV g entries

namespace FSAnalyzer

/-- `OutFormat`. -/
inductive OutFormat where
  | json
  | csv
  deriving DecidableEq, Repr

/-- `DumpOutput`. -/
def dumpOutput (outFormat : OutFormat) (effectTable : EffectTable) : String :=
  match outFormat with
  | .json => dumpJSON effectTable
  | .csv => dumpCSV effectTable

end FSAnalyzer

open FSAnalyzer (OutFormat)

/-! ## 2. Command lines -/

/-- `gengetopt_args_info`: the options that are given. -/
structure ArgsInfo where
  outputTrace : Option String := none
  dumpTrace : Bool := false
  analyzer : List String := []
  faultDetector : Option String := none
  dumpDepGraph : Bool := false
  outputDepGraph : Option String := none
  depGraphFormat : Option String := none
  dumpFsAccesses : Bool := false
  outputFsAccesses : Option String := none
  fsAccessesFormat : Option String := none

/-- What `cmdline_parser` accepts: the values and the modes of the .ggo files. -/
structure ArgsInfo.Accepted (a : ArgsInfo) : Prop where
  analyzer : ∀ x ∈ a.analyzer, x = "dep-infer" ∨ x = "fs"
  faultDetector : ∀ x, a.faultDetector = some x → x = "race"
  mode : a.analyzer = [] ∨ a.faultDetector = none
  depGraphFormat : ∀ x, a.depGraphFormat = some x → x = "csv" ∨ x = "dot"
  fsAccessesFormat : ∀ x, a.fsAccessesFormat = some x → x = "csv" ∨ x = "json"

/-- `CLIArgs`. -/
structure CLIArgs where
  analyzers : List String
  faultDetector : Option String
  cliOptions : Table String String compare
  dumpTrace : Bool
  outputTrace : Option String

/-- An entry of `cli_options`, if the option is given. -/
def addOption (key : String) (val : Option String) (cliOptions : Table String String compare) :
    Table String String compare :=
  match val with
  | some val => cliOptions.addEntry key val
  | none => cliOptions

/-- A flag as an option. -/
def flag (given : Bool) : Option String := if given then some "true" else none

/-- The arguments that `process_args` makes of the options. -/
def cliArgs (dumpTrace₀ : Bool) (argsInfo : ArgsInfo) : CLIArgs where
  analyzers := argsInfo.analyzer ++
    (if argsInfo.faultDetector = some "race" then ["dep-infer", "fs"] else [])
  faultDetector := argsInfo.faultDetector
  cliOptions :=
    addOption "output-fs_accesses" argsInfo.outputFsAccesses <|
    addOption "stdout-fs_accesses" (flag argsInfo.dumpFsAccesses) <|
    addOption "output-dep_graph" argsInfo.outputDepGraph <|
    addOption "stdout-dep_graph" (flag argsInfo.dumpDepGraph) <|
    addOption "fs_accesses_format" argsInfo.fsAccessesFormat <|
    addOption "dep_graph_format" argsInfo.depGraphFormat ∅
  dumpTrace := argsInfo.dumpTrace || dumpTrace₀
  outputTrace := argsInfo.outputTrace

/-- `process_args`: its messages, and the arguments unless it exits. -/
def processArgs (dumpTrace₀ : Bool) (argsInfo : ArgsInfo) : List String × Option CLIArgs :=
  if argsInfo.dumpTrace && argsInfo.outputTrace.isSome then
    (["options '--dump-trace' and '--output-trace' are mutually exclusive"], none)
  else if argsInfo.dumpDepGraph && argsInfo.outputDepGraph.isSome then
    (["options '--dump-dep-graph' and '--output-dep-graph' are mutually" ++ "exclusive"], none)
  else if argsInfo.dumpFsAccesses && argsInfo.outputFsAccesses.isSome then
    -- the third check does not exit
    (["options '--dump-fs-accesses' and '--output-fs-accesses'" ++ "are mutually exclusive"],
      some (cliArgs dumpTrace₀ argsInfo))
  else ([], some (cliArgs dumpTrace₀ argsInfo))

/-! ## 3. The processor -/

/-- `get_graph_format`. -/
def getGraphFormat (cliArgs : CLIArgs) : GraphFormat :=
  match cliArgs.cliOptions.getValue "dep_graph_format" with
  | none => .dot
  | some val => if val = "dot" then .dot else .csv

/-- `get_fs_out_format`. -/
def getFsOutFormat (cliArgs : CLIArgs) : OutFormat :=
  match cliArgs.cliOptions.getValue "fs_accesses_format" with
  | none => .json
  | some val => if val = "json" then .json else .csv

/-- `OutWriter`. -/
inductive OutWriter where
  | stdout
  | file (filename : String)
  deriving DecidableEq, Repr

/-- An analyzer, as far as it is set up. -/
inductive AnalyzerObj where
  | dump
  | depInfer (graphFormat : GraphFormat)
  | fs (outFormat : OutFormat)
  deriving DecidableEq, Repr

/-- A file name behind which the id of the process is written. -/
def withPid (filename : String) : Option Nat → String
  | some pid => filename ++ toString pid
  | none => filename

/-- `INIT_OUT`. -/
def initOut (cliArgs : CLIArgs) (pid : Option Nat) (key : String) (out : Option OutWriter) :
    Option OutWriter :=
  let out := if (cliArgs.cliOptions.getValue ("stdout-" ++ key)).isSome then some .stdout else out
  match cliArgs.cliOptions.getValue ("output-" ++ key) with
  | some filename => some (.file (withPid filename pid))
  | none => out

/-- An analyzer with its writer; both are pointers. -/
abbrev AnalyzerEntry := Option AnalyzerObj × Option OutWriter

/-- The body of the loop of `InitAnalyzers`; `analyzer_ptr` keeps what the round before left. -/
def initAnalyzer (cliArgs : CLIArgs) (pid : Option Nat)
    (s : Option AnalyzerObj × List AnalyzerEntry) (analyzerStr : String) :
    Option AnalyzerObj × List AnalyzerEntry :=
  let analyzerPtr : Option AnalyzerObj :=
    if analyzerStr = "dep-infer" then some (.depInfer (getGraphFormat cliArgs)) else s.1
  let out := if analyzerStr = "dep-infer" then initOut cliArgs pid "dep_graph" none else none
  let analyzerPtr : Option AnalyzerObj :=
    if analyzerStr = "fs" then some (.fs (getFsOutFormat cliArgs)) else analyzerPtr
  let out := if analyzerStr = "fs" then initOut cliArgs pid "fs_accesses" out else out
  (analyzerPtr, s.2 ++ [(analyzerPtr, out)])

/-- Whether the trace is dumped. -/
def CLIArgs.dumps (cliArgs : CLIArgs) : Bool := cliArgs.dumpTrace || cliArgs.outputTrace.isSome

/-- The analyzer that dumps the trace, if it is asked for. -/
def initDump (cliArgs : CLIArgs) (pid : Option Nat) : List AnalyzerEntry :=
  if cliArgs.dumps then
    let out := if cliArgs.dumpTrace then some OutWriter.stdout else none
    let out := match cliArgs.outputTrace with
      | some filename => some (.file (withPid filename pid))
      | none => out
    [(some .dump, out)]
  else []

/-- `InitAnalyzers`. -/
def initAnalyzers (cliArgs : CLIArgs) (pid : Option Nat) : List AnalyzerEntry :=
  (cliArgs.analyzers.foldl (initAnalyzer cliArgs pid) (none, initDump cliArgs pid)).2

/-- The pointer `fault_detector`. A race detector refers to the tables of two analyzers. -/
inductive DetectorPtr where
  | null
  | wild
  | race (depAnalyzer fsAnalyzer : Nat)
  deriving DecidableEq, Repr

/-- `InitFaultDetector`; `none` where a `static_cast` is wrong or there is no such analyzer. -/
def initFaultDetector (cliArgs : CLIArgs) (analyzers : List AnalyzerEntry)
    (faultDetector : DetectorPtr) : Option DetectorPtr :=
  let offset := if cliArgs.dumps then 1 else 0
  match cliArgs.faultDetector with
  | none => some faultDetector
  | some faultDetectorStr =>
      if faultDetectorStr = "race" then
        match analyzers[offset + 0]?, analyzers[offset + 1]? with
        | some (some (AnalyzerObj.depInfer _), _), some (some (AnalyzerObj.fs _), _) =>
            some (.race (offset + 0) (offset + 1))
        | _, _ => none
      else some faultDetector

/-- `Processor`. -/
structure Processor where
  analyzers : List AnalyzerEntry
  faultDetector : DetectorPtr

/-- `Setup`. -/
def setup (cliArgs : CLIArgs) (pid : Option Nat) (faultDetector₀ : DetectorPtr) :
    Option Processor :=
  let analyzers := initAnalyzers cliArgs pid
  (initFaultDetector cliArgs analyzers faultDetector₀).map fun ptr => ⟨analyzers, ptr⟩

/-! ## 4. What is written -/

/-- How the processing ends. -/
inductive Ending where
  | finished
  | aborted (e : Abort)
  | assertion
  | undefined
  deriving DecidableEq, Repr

/-- How an analysis that does not return ends the processing. -/
def Ending.ofAbort : Abort → Ending
  -- `PopEntry` flows off its end
  | .missingKey => .undefined
  | e => .aborted e

/-- `OutWriter::ToString`. -/
def OutWriter.toStr : OutWriter → String
  | .stdout => "STDOUT"
  | .file filename => "FILE '" ++ filename ++ "'"

/-- A line of `debug::msg`, a line of `debug::info`, the line of `debug::info` that names the
    writer of an output, or an output. -/
inductive Write where
  | msg (message : String)
  | info (name message : String)
  | dumping (name : String) (out : OutWriter)
  | output (out : OutWriter) (text : String)
  deriving DecidableEq, Repr

/-- A line of `debug::info`, in green. -/
def infoLine (name message : String) : String :=
  "\x1b[0;32m" ++ "Info" ++ "[" ++ name ++ "]: " ++ message ++ "\x1b[0m" ++ "\n"

/-- Where it is written, and what. -/
def Write.text : Write → OutWriter × String
  | .msg message => (.stdout, message ++ "\n")
  | .info name message => (.stdout, infoLine name message)
  | .dumping name out => (.stdout, infoLine name ("Dumping analysis output to " ++ out.toStr))
  | .output out text => (out, text)

/-- What is written, in its order, and how it ends. -/
structure Output where
  writes : List Write
  ending : Ending
  deriving DecidableEq, Repr

/-- What standard output shows. -/
def Output.shown (o : Output) : String :=
  String.join (((o.writes.map Write.text).filter fun w => w.1 = .stdout).map Prod.snd)

/-- One part of the processing behind another. -/
def Output.andThen (o : Output) (o' : Output) : Output :=
  match o.ending with
  | .finished => ⟨o.writes ++ o'.writes, o'.ending⟩
  | e => ⟨o.writes, e⟩

/-- `GetName`. -/
def AnalyzerObj.getName : AnalyzerObj → String
  | .dump => "DumpAnalyzer"
  | .depInfer _ => "DependencyInferenceAnalyzer"
  | .fs _ => "FSAnalyzer"

/-- What an analysis that is done writes. -/
def analyzerWrites (name time : String) (out : Option OutWriter) (text : String) : List Write :=
  .info name "Start analyzing traces..." ::
    .info name ("Analysis is done in " ++ time ++ "ms") ::
    out.toList.flatMap fun writer => [.dumping name writer, .output writer text]

section Run

/- The order of an iteration over the nodes of a graph. -/
variable (order : DepGraph → List (String × EventInfo)) (t : Trace)

/-- `Analyze` and `DumpOutput` of an analyzer. -/
def analyzerOutput : AnalyzerObj → Except Abort String
  | .dump => .ok (dump t)
  | .depInfer graphFormat =>
      .ok (printGraph graphFormat (dependencyGraph t) (order (dependencyGraph t)))
  | .fs outFormat =>
      (FSAnalyzer.analyze t).map fun st => FSAnalyzer.dumpOutput outFormat st.effectTable

/-- A round of the loop of `AnalyzeTraces`; `time` is what `GetAnalysisTime` shows. -/
def analyzeEntry (time : String) : AnalyzerEntry → Output
  | (none, _) => ⟨[], .undefined⟩
  | (some analyzer, out) =>
      match analyzerOutput order t analyzer with
      | .error e => ⟨[.info analyzer.getName "Start analyzing traces..."], .ofAbort e⟩
      | .ok text => ⟨analyzerWrites analyzer.getName time out text, .finished⟩

/-- `AnalyzeTraces`; `times i` is the time of round `i`. -/
def analyzeTraces (times : Nat → String) : List AnalyzerEntry → Output
  | [] => ⟨[], .finished⟩
  | entry :: entries =>
      (analyzeEntry order t (times 0) entry).andThen
        (analyzeTraces (fun i => times (i + 1)) entries)

/-- The message of `DetectFaults`. -/
def detecting : Write := .info "RaceDetector" "Detecting faults..."

/-- `DetectFaults`, after `AnalyzeTraces`: the analyzers that a race detector refers to have
    analysed the trace. -/
def detectFaults : DetectorPtr → Output
  | .null => ⟨[], .finished⟩
  | .wild => ⟨[], .undefined⟩
  | .race _ _ =>
      match raceReport t with
      | .error e => ⟨[detecting], .ofAbort e⟩
      | .ok none => ⟨[detecting], .assertion⟩
      | .ok (some lines) =>
          ⟨detecting :: lines.map fun line => .output .stdout (line ++ "\n"), .finished⟩

/-- `Setup`, `AnalyzeTraces` and `DetectFaults`. -/
def process (times : Nat → String) (cliArgs : CLIArgs) (pid : Option Nat)
    (faultDetector₀ : DetectorPtr) : Output :=
  match setup cliArgs pid faultDetector₀ with
  | none => ⟨[], .undefined⟩
  | some processor =>
      (analyzeTraces order t times processor.analyzers).andThen
        (detectFaults t processor.faultDetector)

end Run

/-- `main` of fsracer, with the text of the trace file; `none` where it exits before `Setup`. -/
def fsracer (order : DepGraph → List (String × EventInfo)) (times : Nat → String)
    (dumpTrace₀ : Bool) (argsInfo : ArgsInfo) (file : Option String) : Option Output := do
  let cliArgs ← (processArgs dumpTrace₀ argsInfo).2
  let text ← file
  match TraceParser.parse text with
  | .error _ => none
  | .ok trace => return process order trace times cliArgs none .null

/-- What is written before the callbacks run. -/
def collecting (threadId : Nat) : List Write :=
  [.msg "Starting the FSRacer Client...",
    .info "NodeTrace" ("PID " ++ toString threadId ++ ", Start collecting trace...")]

/-- The message behind the callbacks; `seconds` is what `GetTraceGenerationTime` shows. -/
def collected (seconds : String) : Write :=
  .info "NodeTrace" ("Trace collected in " ++ seconds ++ " seconds")

/-- `dr_client_main`, the callbacks of the process and `event_exit` of drfsracer; `none` where
    it exits before the process starts. -/
def drfsracer (order : DepGraph → List (String × EventInfo)) (times : Nat → String)
    (seconds : String) (dumpTrace₀ : Bool) (faultDetector₀ : DetectorPtr) (argsInfo : ArgsInfo)
    (pid threadId : Nat) (cwd : String) (cs : List NodeGenerator.Callback) : Option Output := do
  let cliArgs ← (processArgs dumpTrace₀ argsInfo).2
  match NodeGenerator.run threadId cwd cs with
  -- `AbortWithErr` exits, and `event_exit` shows the error on standard error
  | .error (.aborted _) => return ⟨collecting threadId, .finished⟩
  | .error .undefined => return ⟨collecting threadId, .undefined⟩
  | .ok traceGen =>
      let traceGen := NodeGenerator.stop traceGen
      let o := process order traceGen.trace times cliArgs (some pid) faultDetector₀
      return ⟨collecting threadId ++ collected seconds :: o.writes, o.ending⟩

/-! ## 5. What the options ask for -/

/-- The writer of an output: a file counts before standard output. -/
def writerOf (toStdout : Bool) (filename : Option String) (pid : Option Nat) : Option OutWriter :=
  match filename with
  | some filename => some (.file (withPid filename pid))
  | none => if toStdout then some .stdout else none

/-- The analyzer of a name, with its writer. -/
def entryOf (a : ArgsInfo) (pid : Option Nat) (analyzerStr : String) : AnalyzerEntry :=
  if analyzerStr = "dep-infer" then
    (some (.depInfer (getGraphFormat (cliArgs false a))),
      writerOf a.dumpDepGraph a.outputDepGraph pid)
  else
    (some (.fs (getFsOutFormat (cliArgs false a))),
      writerOf a.dumpFsAccesses a.outputFsAccesses pid)

/-- The analyzer that dumps the trace. -/
def dumpEntries (dumpTrace₀ : Bool) (a : ArgsInfo) (pid : Option Nat) : List AnalyzerEntry :=
  (writerOf (a.dumpTrace || dumpTrace₀) a.outputTrace pid).toList.map fun out =>
    (some .dump, some out)

section Setup

variable {a : ArgsInfo} (dumpTrace₀ : Bool) (pid : Option Nat)

theorem getValue_addOption (key key' : String) (val : Option String)
    (t : Table String String compare) : (addOption key val t).getValue key' =
      if key = key' then val.or (t.getValue key') else t.getValue key' := by
  cases val with
  | none => simp [addOption]
  | some val => simp [addOption, Table.getValue_addEntry]

theorem flag_isSome (given : Bool) : (flag given).isSome = given := by
  cases given <;> rfl

theorem initOut_graph (a : ArgsInfo) : initOut (cliArgs dumpTrace₀ a) pid "dep_graph" none =
    writerOf a.dumpDepGraph a.outputDepGraph pid := by
  simp [initOut, cliArgs, getValue_addOption, writerOf, flag_isSome]

theorem initOut_accesses (a : ArgsInfo) :
    initOut (cliArgs dumpTrace₀ a) pid "fs_accesses" none =
      writerOf a.dumpFsAccesses a.outputFsAccesses pid := by
  simp [initOut, cliArgs, getValue_addOption, writerOf, flag_isSome]

theorem initDump_eq (a : ArgsInfo) :
    initDump (cliArgs dumpTrace₀ a) pid = dumpEntries dumpTrace₀ a pid := by
  unfold initDump dumpEntries CLIArgs.dumps cliArgs writerOf
  dsimp only
  cases a.outputTrace <;> cases a.dumpTrace <;> cases dumpTrace₀ <;> rfl

/-- A round for an accepted name does not depend on the round before. -/
theorem initAnalyzer_eq (s : Option AnalyzerObj × List AnalyzerEntry) {x : String}
    (hx : x = "dep-infer" ∨ x = "fs") :
    (initAnalyzer (cliArgs dumpTrace₀ a) pid s x).2 = s.2 ++ [entryOf a pid x] := by
  unfold initAnalyzer entryOf
  rcases hx with rfl | rfl
  · rw [initOut_graph]
    simp only [String.reduceEq, if_true, if_false]
    rfl
  · simp only [String.reduceEq, if_true, if_false]
    rw [initOut_accesses]
    rfl

theorem foldl_initAnalyzer (xs : List String) (hxs : ∀ x ∈ xs, x = "dep-infer" ∨ x = "fs")
    (s : Option AnalyzerObj × List AnalyzerEntry) :
    (xs.foldl (initAnalyzer (cliArgs dumpTrace₀ a) pid) s).2 = s.2 ++ xs.map (entryOf a pid) := by
  induction xs generalizing s with
  | nil => simp
  | cons x xs ih =>
      rw [List.foldl_cons, ih fun y hy => hxs y (List.mem_cons_of_mem x hy),
        initAnalyzer_eq dumpTrace₀ pid s (hxs x List.mem_cons_self), List.append_assoc]
      rfl

theorem ArgsInfo.Accepted.analyzers (ha : a.Accepted) :
    ∀ x ∈ (cliArgs dumpTrace₀ a).analyzers, x = "dep-infer" ∨ x = "fs" := by
  intro x hx
  rcases List.mem_append.mp hx with hx | hx
  · exact ha.analyzer x hx
  · split at hx
    · simpa using hx
    · cases hx

/-- `InitAnalyzers`: the dump comes first, then one analyzer for each name. -/
theorem initAnalyzers_eq (ha : a.Accepted) : initAnalyzers (cliArgs dumpTrace₀ a) pid =
    dumpEntries dumpTrace₀ a pid ++ (cliArgs dumpTrace₀ a).analyzers.map (entryOf a pid) := by
  unfold initAnalyzers
  rw [foldl_initAnalyzer dumpTrace₀ pid _ (ha.analyzers dumpTrace₀), initDump_eq]

/-- The pointer after `Setup`. -/
def pointerOf (a : ArgsInfo) (dumpTrace₀ : Bool) (faultDetector₀ : DetectorPtr) : DetectorPtr :=
  let offset := if (cliArgs dumpTrace₀ a).dumps then 1 else 0
  if a.faultDetector.isSome then .race offset (offset + 1) else faultDetector₀

/-- **The casts of `InitFaultDetector` are right.** -/
theorem setup_eq (ha : a.Accepted) (faultDetector₀ : DetectorPtr) :
    setup (cliArgs dumpTrace₀ a) pid faultDetector₀ = some
      ⟨dumpEntries dumpTrace₀ a pid ++ (cliArgs dumpTrace₀ a).analyzers.map (entryOf a pid),
        pointerOf a dumpTrace₀ faultDetector₀⟩ := by
  unfold setup
  rw [initAnalyzers_eq dumpTrace₀ pid ha]
  unfold initFaultDetector pointerOf
  have hfd : (cliArgs dumpTrace₀ a).faultDetector = a.faultDetector := rfl
  rw [hfd]
  cases hd : a.faultDetector with
  | none => rfl
  | some x =>
      obtain rfl := ha.faultDetector x hd
      -- in this mode no analyzer is named, so that those of the detector follow the dump
      have hnone : a.analyzer = [] := ha.mode.resolve_right (by simp [hd])
      have hnames : (cliArgs dumpTrace₀ a).analyzers = ["dep-infer", "fs"] := by
        simp [cliArgs, hnone, hd]
      rw [hnames, ← initDump_eq]
      unfold initDump
      split <;> simp [entryOf]

end Setup

/-! ## 6. How the processing ends -/

section Process

variable (order : DepGraph → List (String × EventInfo)) (t : Trace)

theorem Output.andThen_finished {o : Output} (h : o.ending = .finished) (o' : Output) :
    o.andThen o' = ⟨o.writes ++ o'.writes, o'.ending⟩ := by
  unfold Output.andThen
  rw [h]

theorem Output.andThen_of_ne {o : Output} (h : o.ending ≠ .finished) (o' : Output) :
    o.andThen o' = o := by
  obtain ⟨writes, ending⟩ := o
  cases ending with
  | finished => exact absurd rfl h
  | _ => rfl

theorem Output.andThen_ending (o o' : Output) : (o.andThen o').ending =
    if o.ending = .finished then o'.ending else o.ending := by
  by_cases h : o.ending = .finished
  · rw [Output.andThen_finished h, if_pos h]
  · rw [Output.andThen_of_ne h, if_neg h]

theorem Ending.ofAbort_ne_finished (e : Abort) : Ending.ofAbort e ≠ .finished := by
  cases e <;> simp [Ending.ofAbort]

/-- What the dump of the trace writes, if there is one. -/
def dumpWrites (dumpTrace₀ : Bool) (a : ArgsInfo) (pid : Option Nat) (time : String) :
    List Write :=
  (writerOf (a.dumpTrace || dumpTrace₀) a.outputTrace pid).toList.flatMap fun out =>
    analyzerWrites "DumpAnalyzer" time (some out) (dump t)

/-- The dump never fails. -/
theorem analyzeTraces_dump (times : Nat → String) (dumpTrace₀ : Bool) (a : ArgsInfo)
    (pid : Option Nat) (entries : List AnalyzerEntry) :
    analyzeTraces order t times (dumpEntries dumpTrace₀ a pid ++ entries) =
      let rest := analyzeTraces order t
        (fun i => times (i + (dumpEntries dumpTrace₀ a pid).length)) entries
      ⟨dumpWrites t dumpTrace₀ a pid (times 0) ++ rest.writes, rest.ending⟩ := by
  unfold dumpEntries dumpWrites
  cases writerOf (a.dumpTrace || dumpTrace₀) a.outputTrace pid with
  | none => rfl
  | some out => simp [analyzeTraces, analyzeEntry, analyzerOutput, Output.andThen,
      AnalyzerObj.getName]

/-- How the analysis of the accesses ends. -/
def accessEnding : Ending :=
  match FSAnalyzer.analyze t with
  | .error e => .ofAbort e
  | .ok _ => .finished

theorem analyzeEntry_ending (time : String) (a : ArgsInfo) (pid : Option Nat) (x : String) :
    (analyzeEntry order t time (entryOf a pid x)).ending =
      if x = "dep-infer" then .finished else accessEnding t := by
  unfold entryOf accessEnding
  split
  · rfl
  · unfold analyzeEntry analyzerOutput
    cases FSAnalyzer.analyze t <;> rfl

theorem analyzeTraces_ending (times : Nat → String) (a : ArgsInfo) (pid : Option Nat)
    (xs : List String) (hxs : ∀ x ∈ xs, x = "dep-infer" ∨ x = "fs") :
    (analyzeTraces order t times (xs.map (entryOf a pid))).ending =
      if "fs" ∈ xs then accessEnding t else .finished := by
  induction xs generalizing times with
  | nil => rfl
  | cons x xs ih =>
      have ih := ih (fun i => times (i + 1)) fun y hy => hxs y (List.mem_cons_of_mem x hy)
      have he := analyzeEntry_ending order t (times 0) a pid x
      rw [List.map_cons, analyzeTraces]
      rcases hxs x List.mem_cons_self with rfl | rfl
      · rw [if_pos rfl] at he
        rw [Output.andThen_finished he, ih]
        simp
      · rw [if_neg (by simp)] at he
        rw [if_pos List.mem_cons_self]
        by_cases hf : accessEnding t = .finished
        · rw [Output.andThen_finished (he.trans hf), ih, hf]
          simp
        · rw [Output.andThen_of_ne (he ▸ hf), he]

/-- Whether the accesses are analysed. -/
def ArgsInfo.RunsFs (a : ArgsInfo) : Prop := "fs" ∈ a.analyzer ∨ a.faultDetector = some "race"

theorem runsFs_iff (a : ArgsInfo) (dumpTrace₀ : Bool) :
    "fs" ∈ (cliArgs dumpTrace₀ a).analyzers ↔ a.RunsFs := by
  unfold cliArgs ArgsInfo.RunsFs
  by_cases h : a.faultDetector = some "race" <;> simp [h]

/-- The processing with accepted options. -/
theorem process_eq {a : ArgsInfo} (ha : a.Accepted) (times : Nat → String) (dumpTrace₀ : Bool)
    (pid : Option Nat) (faultDetector₀ : DetectorPtr) :
    process order t times (cliArgs dumpTrace₀ a) pid faultDetector₀ =
      let rest := (analyzeTraces order t
          (fun i => times (i + (dumpEntries dumpTrace₀ a pid).length))
          ((cliArgs dumpTrace₀ a).analyzers.map (entryOf a pid))).andThen
        (detectFaults t (pointerOf a dumpTrace₀ faultDetector₀))
      ⟨dumpWrites t dumpTrace₀ a pid (times 0) ++ rest.writes, rest.ending⟩ := by
  unfold process
  rw [setup_eq dumpTrace₀ pid ha]
  dsimp only
  rw [analyzeTraces_dump]
  dsimp only
  generalize analyzeTraces order t _ _ = o
  obtain ⟨writes, ending⟩ := o
  cases ending with
  | finished => simp [Output.andThen]
  | _ => rfl

/-- How the fault detection ends, for an analysed trace. -/
theorem detectFaults_race (i j : Nat) {st : FsState} (hst : FSAnalyzer.analyze t = .ok st) :
    (detectFaults t (.race i j)).ending =
      if raceReport t = .ok none then .assertion else .finished := by
  unfold detectFaults
  rw [raceReport_of_ok hst]
  cases (detect (dependencyGraph t) st.effectTable .init).map Prod.fst <;> simp

theorem process_race_ending {a : ArgsInfo} (ha : a.Accepted) (hrace : a.faultDetector = some "race")
    (times : Nat → String) (dumpTrace₀ : Bool) (pid : Option Nat) (faultDetector₀ : DetectorPtr) :
    (process order t times (cliArgs dumpTrace₀ a) pid faultDetector₀).ending =
      if accessEnding t = .finished then
        if raceReport t = .ok none then .assertion else .finished
      else accessEnding t := by
  have hruns : "fs" ∈ (cliArgs dumpTrace₀ a).analyzers := (runsFs_iff a _).mpr (.inr hrace)
  rw [process_eq order t ha]
  dsimp only
  rw [Output.andThen_ending, analyzeTraces_ending order t _ a pid _ (ha.analyzers dumpTrace₀),
    if_pos hruns]
  unfold pointerOf
  rw [hrace]
  cases hst : FSAnalyzer.analyze t with
  | error e => simp [accessEnding, hst, Ending.ofAbort_ne_finished]
  | ok st => simp [accessEnding, hst, detectFaults_race t _ _ hst]

theorem process_analysis_ending {a : ArgsInfo} (ha : a.Accepted) (hnone : a.faultDetector = none)
    (times : Nat → String) (dumpTrace₀ : Bool) (pid : Option Nat) {faultDetector₀ : DetectorPtr}
    (hptr : faultDetector₀ = .null ∨ faultDetector₀ = .wild) :
    (process order t times (cliArgs dumpTrace₀ a) pid faultDetector₀).ending =
      if "fs" ∈ a.analyzer ∧ accessEnding t ≠ .finished then accessEnding t
      else if faultDetector₀ = .wild then .undefined else .finished := by
  have hnames : (cliArgs dumpTrace₀ a).analyzers = a.analyzer := by simp [cliArgs, hnone]
  rw [process_eq order t ha]
  dsimp only
  rw [Output.andThen_ending, hnames, analyzeTraces_ending order t _ a pid _ ha.analyzer]
  unfold pointerOf
  rw [hnone]
  by_cases hfs : "fs" ∈ a.analyzer <;> by_cases hf : accessEnding t = .finished <;>
    rcases hptr with rfl | rfl <;> simp [hfs, hf, detectFaults]

/-- **How the processing ends.** The casts are right for all options. Behaviour is undefined
    exactly when the analysis of the accesses takes an inode that is not there, or when the
    analyses are done, no detector is asked for and the pointer that nobody set is not null. -/
theorem process_ending {a : ArgsInfo} (ha : a.Accepted) (times : Nat → String)
    (dumpTrace₀ : Bool) (pid : Option Nat) {faultDetector₀ : DetectorPtr}
    (hptr : faultDetector₀ = .null ∨ faultDetector₀ = .wild)
    {o : Output} (ho : process order t times (cliArgs dumpTrace₀ a) pid faultDetector₀ = o) :
    (o.ending = .undefined ↔ a.RunsFs ∧ FSAnalyzer.analyze t = .error .missingKey ∨
      faultDetector₀ = .wild ∧ a.faultDetector = none ∧
        (a.RunsFs → ∃ st, FSAnalyzer.analyze t = .ok st)) ∧
    (∀ e, o.ending = .aborted e ↔
      a.RunsFs ∧ FSAnalyzer.analyze t = .error e ∧ e ≠ .missingKey) ∧
    (o.ending = .assertion ↔ a.faultDetector = some "race" ∧ raceReport t = .ok none) := by
  subst ho
  cases hd : a.faultDetector with
  | none =>
      have hruns : a.RunsFs ↔ "fs" ∈ a.analyzer := by simp [ArgsInfo.RunsFs, hd]
      rw [process_analysis_ending order t ha hd times dumpTrace₀ pid hptr, hruns]
      by_cases hfs : "fs" ∈ a.analyzer
      · cases hst : FSAnalyzer.analyze t with
        | error e =>
            cases e <;> rcases hptr with rfl | rfl <;>
              simp [accessEnding, hst, hfs, Ending.ofAbort]
        | ok st => rcases hptr with rfl | rfl <;> simp [accessEnding, hst, hfs]
      · rcases hptr with rfl | rfl <;> simp [hfs]
  | some x =>
      obtain rfl := ha.faultDetector x hd
      have hruns : a.RunsFs := .inr hd
      rw [process_race_ending order t ha hd]
      cases hst : FSAnalyzer.analyze t with
      | error e =>
          have hr : raceReport t ≠ .ok none := by simp [raceReport, hst, Except.map]
          cases e <;> simp [accessEnding, hst, hruns, hr, Ending.ofAbort]
      | ok st =>
          by_cases hr : raceReport t = .ok none <;> simp [accessEnding, hst, hr]

end Process

/-- Both analyzers, and no detector. -/
def bothAnalyzers : ArgsInfo where
  analyzer := ["dep-infer", "fs"]

theorem accepted_bothAnalyzers : bothAnalyzers.Accepted := by constructor <;> simp [bothAnalyzers]

/-- The analysis of the two writers by drfsracer, with a pointer that is not null. -/
theorem process_ending_wild :
    let o := process (·.nodes.toList) twoWriters (fun _ => "0.125") (cliArgs false bothAnalyzers)
      (some 7) .wild
    (o.ending = .undefined ↔
      bothAnalyzers.RunsFs ∧ FSAnalyzer.analyze twoWriters = .error .missingKey ∨
      DetectorPtr.wild = .wild ∧ bothAnalyzers.faultDetector = none ∧
        (bothAnalyzers.RunsFs → ∃ st, FSAnalyzer.analyze twoWriters = .ok st)) ∧
    (∀ e, o.ending = .aborted e ↔ bothAnalyzers.RunsFs ∧
      FSAnalyzer.analyze twoWriters = .error e ∧ e ≠ .missingKey) ∧
    (o.ending = .assertion ↔ bothAnalyzers.faultDetector = some "race" ∧
      raceReport twoWriters = .ok none) :=
  process_ending (·.nodes.toList) twoWriters accepted_bothAnalyzers (fun _ => "0.125") false
    (some 7) (.inr rfl) rfl

/-! ## 7. What is written in mode `fault` -/

section Race

variable {t : Trace} {a : ArgsInfo}

/-- The text of the graph in the format that is asked for. -/
def graphText (a : ArgsInfo) (g : DepGraph) (entries : List (String × EventInfo)) : String :=
  printGraph (getGraphFormat (cliArgs false a)) g entries

/-- The text of the accesses in the format that is asked for. -/
def accessText (a : ArgsInfo) (effectTable : EffectTable) : String :=
  FSAnalyzer.dumpOutput (getFsOutFormat (cliArgs false a)) effectTable

theorem analyzeTraces_race (order : DepGraph → List (String × EventInfo)) {st : FsState}
    (ht : FSAnalyzer.analyze t = .ok st) (times : Nat → String) (pid : Option Nat) :
    analyzeTraces order t times (["dep-infer", "fs"].map (entryOf a pid)) =
      ⟨analyzerWrites "DependencyInferenceAnalyzer" (times 0)
          (writerOf a.dumpDepGraph a.outputDepGraph pid)
          (graphText a (dependencyGraph t) (order (dependencyGraph t))) ++
        analyzerWrites "FSAnalyzer" (times 1) (writerOf a.dumpFsAccesses a.outputFsAccesses pid)
          (accessText a st.effectTable), .finished⟩ := by
  have hdep : analyzeEntry order t (times 0) (entryOf a pid "dep-infer") =
      ⟨analyzerWrites "DependencyInferenceAnalyzer" (times 0)
        (writerOf a.dumpDepGraph a.outputDepGraph pid)
        (graphText a (dependencyGraph t) (order (dependencyGraph t))), .finished⟩ := rfl
  have hfs : analyzeEntry order t (times 1) (entryOf a pid "fs") =
      ⟨analyzerWrites "FSAnalyzer" (times 1) (writerOf a.dumpFsAccesses a.outputFsAccesses pid)
        (accessText a st.effectTable), .finished⟩ := by
    have hentry : entryOf a pid "fs" = (some (.fs (getFsOutFormat (cliArgs false a))),
        writerOf a.dumpFsAccesses a.outputFsAccesses pid) := rfl
    rw [hentry, analyzeEntry, analyzerOutput, ht]
    rfl
  rw [List.map_cons, analyzeTraces, hdep, List.map_singleton, analyzeTraces, hfs]
  simp [Output.andThen, analyzeTraces]

/-- **What is written in mode `fault`**, for a trace whose analysis succeeds and whose links are
    resolved: the dump, the graph and the accesses through the writers that the options ask for,
    each behind its messages, and then exactly the races. Of the uninitialised members only
    `dump_trace` counts, and only for the dump. -/
theorem process_race (ha : a.Accepted) (hrace : a.faultDetector = some "race") {st : FsState}
    (ht : FSAnalyzer.analyze t = .ok st) (hg : (dependencyGraph t).Closed) :
    ∃ tags entries, ExactReport (dependencyGraph t) st.effectTable tags entries ∧
      ∀ order times dumpTrace₀ pid faultDetector₀,
        process order t times (cliArgs dumpTrace₀ a) pid faultDetector₀ =
          let first := (dumpEntries dumpTrace₀ a pid).length
          ⟨dumpWrites t dumpTrace₀ a pid (times 0) ++
            analyzerWrites "DependencyInferenceAnalyzer" (times first)
              (writerOf a.dumpDepGraph a.outputDepGraph pid)
              (graphText a (dependencyGraph t) (order (dependencyGraph t))) ++
            analyzerWrites "FSAnalyzer" (times (first + 1))
              (writerOf a.dumpFsAccesses a.outputFsAccesses pid) (accessText a st.effectTable) ++
            detecting :: (reportLines tags entries).map (fun line => .output .stdout (line ++ "\n")),
            .finished⟩ := by
  obtain ⟨tags, entries, hexact, hdetect⟩ := exactReport_analyze ht hg
  refine ⟨tags, entries, hexact, fun order times dumpTrace₀ pid faultDetector₀ => ?_⟩
  obtain ⟨d', hd', -⟩ := hdetect .init (cacheOk_init _)
  have hreport : raceReport t = .ok (some (reportLines tags entries)) := by
    rw [raceReport_of_ok ht, hd']
    rfl
  have hnone : a.analyzer = [] := ha.mode.resolve_right (by simp [hrace])
  have hnames : (cliArgs dumpTrace₀ a).analyzers = ["dep-infer", "fs"] := by
    simp [cliArgs, hnone, hrace]
  rw [process_eq order t ha, hnames, analyzeTraces_race order ht]
  simp only [pointerOf, hrace, Option.isSome_some, if_true, detectFaults, hreport]
  simp [Output.andThen, Nat.add_comm]

/-- With the outputs in files, standard output shows the messages and the races. -/
theorem shown_race (ha : a.Accepted) (hrace : a.faultDetector = some "race") {st : FsState}
    (ht : FSAnalyzer.analyze t = .ok st) (hg : (dependencyGraph t).Closed) {graph accesses : String}
    (hgraph : a.outputDepGraph = some graph) (haccesses : a.outputFsAccesses = some accesses)
    (hdump : a.dumpTrace = false) (hout : a.outputTrace = none) :
    ∃ tags entries, ExactReport (dependencyGraph t) st.effectTable tags entries ∧
      ∀ order times faultDetector₀,
        (process order t times (cliArgs false a) none faultDetector₀).shown = String.join
          ([infoLine "DependencyInferenceAnalyzer" "Start analyzing traces...",
            infoLine "DependencyInferenceAnalyzer" ("Analysis is done in " ++ times 0 ++ "ms"),
            infoLine "DependencyInferenceAnalyzer"
              ("Dumping analysis output to " ++ (OutWriter.file graph).toStr),
            infoLine "FSAnalyzer" "Start analyzing traces...",
            infoLine "FSAnalyzer" ("Analysis is done in " ++ times 1 ++ "ms"),
            infoLine "FSAnalyzer" ("Dumping analysis output to " ++ (OutWriter.file accesses).toStr),
            infoLine "RaceDetector" "Detecting faults..."] ++
          (reportLines tags entries).map (· ++ "\n")) := by
  obtain ⟨tags, entries, hexact, h⟩ := process_race ha hrace ht hg
  refine ⟨tags, entries, hexact, fun order times faultDetector₀ => ?_⟩
  have hlines : ∀ lines : List String, ((lines.map fun line => Write.text
      (.output .stdout (line ++ "\n"))).filter fun w => w.1 = .stdout).map Prod.snd =
        lines.map (· ++ "\n") := by
    intro lines
    induction lines with
    | nil => rfl
    | cons line lines ih => simpa [Write.text] using ih
  have hnone : dumpEntries false a none = [] ∧ ∀ time, dumpWrites t false a none time = [] := by
    simp [dumpEntries, dumpWrites, writerOf, hdump, hout]
  rw [h, hnone.1, hnone.2, hgraph, haccesses, Output.shown]
  simp only [List.map_append, List.map_cons, List.map_map, List.filter_append]
  have hshown := hlines (reportLines tags entries)
  simp [analyzerWrites, writerOf, withPid, Write.text, detecting, Function.comp_def] at hshown ⊢
  rw [hshown]

end Race

/-- Races, the graph on standard output and the accesses in a file. -/
def sampleArgs : ArgsInfo where
  faultDetector := some "race"
  dumpDepGraph := true
  outputFsAccesses := some "accesses"

theorem accepted_sampleArgs : sampleArgs.Accepted := by constructor <;> simp [sampleArgs]

/-- What is written about the two writers. -/
theorem process_race_twoWriters : ∃ st tags entries,
    FSAnalyzer.analyze twoWriters = .ok st ∧
      ExactReport (dependencyGraph twoWriters) st.effectTable tags entries ∧
      ∀ order times dumpTrace₀ pid faultDetector₀,
        process order twoWriters times (cliArgs dumpTrace₀ sampleArgs) pid faultDetector₀ =
          let first := (dumpEntries dumpTrace₀ sampleArgs pid).length
          ⟨dumpWrites twoWriters dumpTrace₀ sampleArgs pid (times 0) ++
            analyzerWrites "DependencyInferenceAnalyzer" (times first) (writerOf true none pid)
              (graphText sampleArgs (dependencyGraph twoWriters)
                (order (dependencyGraph twoWriters))) ++
            analyzerWrites "FSAnalyzer" (times (first + 1))
              (writerOf false (some "accesses") pid) (accessText sampleArgs st.effectTable) ++
            detecting :: (reportLines tags entries).map (fun line => .output .stdout (line ++ "\n")),
            .finished⟩ := by
  obtain ⟨st, hst, -⟩ : ∃ st, FSAnalyzer.analyze twoWriters = .ok st ∧
      st.effectTable.toList = [(⟨"/log"⟩, [⟨"4", .produced, [], ""⟩, ⟨"5", .produced, [], ""⟩])] :=
    FSAnalyzer.exists_analyze_eq_ok (by decide +kernel)
  have hclosed : (dependencyGraph twoWriters).Closed :=
    closed_of_no_link fun e => by simp [twoWriters, Trace.actions, Block.actions]
  obtain ⟨tags, entries, hexact, h⟩ := process_race accepted_sampleArgs rfl hst hclosed
  exact ⟨st, tags, entries, hst, hexact, h⟩

/-! ## 8. drfsracer and fsracer -/

/-- The writer that drfsracer has where fsracer has this one. -/
def OutWriter.online (pid : Nat) : OutWriter → OutWriter
  | .stdout => .stdout
  | .file filename => .file (withPid filename (some pid))

/-- What drfsracer writes where fsracer writes this. -/
def Write.online (pid : Nat) : Write → Write
  | .msg message => .msg message
  | .info name message => .info name message
  | .dumping name out => .dumping name (out.online pid)
  | .output out text => .output (out.online pid) text

/-- The output of drfsracer for that of fsracer. -/
def Output.online (pid : Nat) (o : Output) : Output := ⟨o.writes.map (Write.online pid), o.ending⟩

section Online

variable (order : DepGraph → List (String × EventInfo)) (t : Trace) (pid : Nat)

theorem Output.online_andThen (o o' : Output) :
    (o.andThen o').online pid = (o.online pid).andThen (o'.online pid) := by
  obtain ⟨writes, ending⟩ := o
  cases ending with
  | finished => simp [Output.andThen, Output.online]
  | _ => rfl

theorem analyzerWrites_online (name time : String) (toStdout : Bool) (filename : Option String)
    (text : String) : analyzerWrites name time (writerOf toStdout filename (some pid)) text =
      (analyzerWrites name time (writerOf toStdout filename none) text).map (Write.online pid) := by
  cases filename with
  | some filename => rfl
  | none => cases toStdout <;> rfl

/-- An analyzer other than the dump writes the same for the trace that is read back. -/
theorem analyzeEntry_online (time : String) (a : ArgsInfo) (x : String) :
    analyzeEntry order t time (entryOf a (some pid) x) =
      (analyzeEntry order t.printed time (entryOf a none x)).online pid := by
  unfold entryOf
  split
  · show Output.mk (analyzerWrites _ _ _ _) _ =
      Output.mk (List.map _ (analyzerWrites _ _ _ _)) .finished
    rw [graph_printed, analyzerWrites_online]
  · unfold analyzeEntry analyzerOutput
    rw [analyze_printed]
    cases FSAnalyzer.analyze t with
    | error e => rfl
    | ok st =>
        show Output.mk (analyzerWrites _ _ _ _) _ =
          Output.mk (List.map _ (analyzerWrites _ _ _ _)) .finished
        rw [analyzerWrites_online]

theorem analyzeTraces_online (times : Nat → String) (a : ArgsInfo) (xs : List String) :
    analyzeTraces order t times (xs.map (entryOf a (some pid))) =
      (analyzeTraces order t.printed times (xs.map (entryOf a none))).online pid := by
  induction xs generalizing times with
  | nil => rfl
  | cons x xs ih =>
      rw [List.map_cons, List.map_cons, analyzeTraces, analyzeTraces, ih, analyzeEntry_online,
        Output.online_andThen]

/-- The report is the same, whatever tables the detector refers to. -/
theorem detectFaults_online (i j i' j' : Nat) :
    detectFaults t (.race i j) = (detectFaults t.printed (.race i' j')).online pid := by
  unfold detectFaults
  rw [raceReport_printed]
  cases raceReport t with
  | error e => rfl
  | ok report =>
      cases report with
      | none => rfl
      | some lines => simp [Output.online, Write.online, OutWriter.online, detecting]

theorem pointer_online (a a' : ArgsInfo) (ha : a.faultDetector = a'.faultDetector)
    {faultDetector₀ : DetectorPtr} (hptr : a.faultDetector = none → faultDetector₀ = .null)
    (dumpTrace₀ : Bool) : detectFaults t (pointerOf a dumpTrace₀ faultDetector₀) =
      (detectFaults t.printed (pointerOf a' false .null)).online pid := by
  unfold pointerOf
  rw [← ha]
  cases hd : a.faultDetector with
  | none => simp [hptr hd, detectFaults, Output.online]
  | some x => exact detectFaults_online t pid _ _ _ _

theorem processArgs_eq {a : ArgsInfo} (h : (a.dumpTrace && a.outputTrace.isSome) = false)
    (dumpTrace₀ : Bool) : (processArgs dumpTrace₀ a).2 =
      if a.dumpDepGraph && a.outputDepGraph.isSome then none else some (cliArgs dumpTrace₀ a) := by
  unfold processArgs
  rw [h]
  cases a.dumpDepGraph && a.outputDepGraph.isSome with
  | true => rfl
  | false => cases a.dumpFsAccesses && a.outputFsAccesses.isSome <;> rfl

/-- What the dump of the trace into a file writes. -/
def dumpedTo (file : String) (time : String) : List Write :=
  analyzerWrites "DumpAnalyzer" time (some (.file (withPid file (some pid)))) (dump t)

/-- The processing of the two programs; the dump of drfsracer is a round more. -/
theorem process_online {a : ArgsInfo} (ha : a.Accepted) (hdump : a.dumpTrace = false)
    (hout : a.outputTrace = none) {faultDetector₀ : DetectorPtr}
    (hptr : a.faultDetector = none → faultDetector₀ = .null) (times : Nat → String)
    (dumpTrace₀ : Bool) (file : String) :
    process order t times (cliArgs dumpTrace₀ { a with outputTrace := some file }) (some pid)
        faultDetector₀ =
      let o := process order t.printed (fun i => times (i + 1)) (cliArgs false a) none .null
      ⟨dumpedTo t pid file (times 0) ++ (o.online pid).writes, o.ending⟩ := by
  have ha' : ArgsInfo.Accepted { a with outputTrace := some file } :=
    ⟨ha.analyzer, ha.faultDetector, ha.mode, ha.depGraphFormat, ha.fsAccessesFormat⟩
  have hentry : entryOf { a with outputTrace := some file } (some pid) = entryOf a (some pid) := rfl
  have hnames : (cliArgs dumpTrace₀ { a with outputTrace := some file }).analyzers =
      (cliArgs false a).analyzers := rfl
  have hpointer : detectFaults t
      (pointerOf { a with outputTrace := some file } dumpTrace₀ faultDetector₀) =
      (detectFaults t.printed (pointerOf a false .null)).online pid :=
    pointer_online t pid { a with outputTrace := some file } a rfl hptr dumpTrace₀
  have hone : (dumpEntries dumpTrace₀ { a with outputTrace := some file } (some pid)).length = 1 :=
    rfl
  have hno : writerOf (a.dumpTrace || false) a.outputTrace none = none := by
    rw [hdump, hout]
    rfl
  have hnil : dumpEntries false a none = [] := by
    unfold dumpEntries
    rw [hno]
    rfl
  have hnothing : ∀ time, dumpWrites t.printed false a none time = [] := by
    intro time
    unfold dumpWrites
    rw [hno]
    rfl
  rw [process_eq order t ha', process_eq order t.printed ha, hentry, hnames, hpointer, hone, hnil,
    hnothing, analyzeTraces_online, ← Output.online_andThen]
  simp [dumpWrites, dumpedTo, writerOf, Output.online]

end Online

namespace NodeGenerator

open TraceLexer TraceParser

/-- **drfsracer writes what fsracer writes for the recorded trace.** A run that records an
    operation is traced with `--output-trace`, and fsracer is given the file: behind its messages
    and the dump drfsracer writes the same in the same order, but for the process id in the names
    of files, and it ends in the same way. The pointer to the detector is null or is set, and
    `dump_trace` of fsracer happens to be false. -/
theorem online_offline {threadId : Nat} (hid : threadId ≤ intMax) {cwd : String}
    (hcwd : IsIdentifier cwd) {cs : List Callback} (h : Legal cs) (hs : Sequential cs)
    (hp : Prompt cs) (hc : ∀ c ∈ cs, c.Readable ∧ c.Kept) (hn : cs.length ≤ intMax)
    {a : ArgsInfo} (ha : a.Accepted) (hdump : a.dumpTrace = false) (hout : a.outputTrace = none)
    {faultDetector₀ : DetectorPtr} (hptr : a.faultDetector = none → faultDetector₀ = .null) :
    ∃ g, run threadId cwd cs = .ok g ∧ (g.trace.execOps ≠ [] →
      ∀ order times seconds dumpTrace₀ pid file,
        drfsracer order times seconds dumpTrace₀ faultDetector₀
            { a with outputTrace := some file } pid threadId cwd cs =
          (fsracer order (fun i => times (i + 1)) false a (some (dump g.trace))).map fun o =>
            ⟨collecting threadId ++ collected seconds ::
              (dumpedTo g.trace pid file (times 0) ++ (o.online pid).writes), o.ending⟩) := by
  obtain ⟨g, hg, -⟩ := refines_run threadId cwd h
  refine ⟨g, hg, fun hne order times seconds dumpTrace₀ pid file => ?_⟩
  have hparse : parse (dump g.trace) = .ok g.trace.printed :=
    parse_dump_run hid hcwd h hs hp hc hn hg hne
  have hstop : (stop g).trace = g.trace := rfl
  unfold drfsracer fsracer
  rw [hg, processArgs_eq (by simp [hdump]), processArgs_eq (by simp [hdump])]
  dsimp only
  cases a.dumpDepGraph && a.outputDepGraph.isSome with
  | true => rfl
  | false =>
      show some (Output.mk _ _) = Option.map _ (Option.bind _ _)
      rw [hstop, process_online order g.trace pid ha hdump hout hptr]
      simp [hparse, Output.online]

/-- The sample run in both programs. -/
theorem online_offline_sampleRun : ∃ g, run 1 "/" sampleRun = .ok g ∧
    ∀ order times seconds dumpTrace₀ pid file,
      drfsracer order times seconds dumpTrace₀ .wild { sampleArgs with outputTrace := some file }
          pid 1 "/" sampleRun =
        (fsracer order (fun i => times (i + 1)) false sampleArgs (some (dump g.trace))).map
          fun o => ⟨collecting 1 ++ collected seconds ::
            (dumpedTo g.trace pid file (times 0) ++ (o.online pid).writes), o.ending⟩ := by
  have hid : 1 ≤ intMax := by decide
  have hcwd : IsIdentifier "/" := by decide +kernel
  obtain ⟨g, hg, honline⟩ := online_offline hid hcwd legal_sampleRun sequential_sampleRun
    prompt_sampleRun kept_sampleRun (by decide) accepted_sampleArgs rfl rfl (by simp [sampleArgs])
  exact ⟨g, hg, honline (recorded_sampleRun hg).1⟩

end NodeGenerator

end Fsracer
