import PipeShell.Proofs.Shell.Readers

/-! A pipeline as the runs of its stages from left to right, each on what the stage before it has
written. Starting the programs first and running the builtins later comes to the same. -/
namespace PipeShell

/-- A child that has ended with a status. -/
def Child.ended (status : Int) : Child := ⟨[.exited status]⟩

theorem Child.wait_ended (status : Int) : (ended status).wait = status := rfl

namespace Execution

abbrev Writes := List (Channel × Bytes)

/-- What of the writes of a last stage arrives at the output endpoint. -/
def arrivingOutput (ends : Endpoints) (writes : Writes) : Bytes :=
  writes.flatMap fun (channel, bytes) =>
    if ends.outputWorks && (channel == .output || ends.errorsTo == .output) then bytes else []

/-- What of the writes of a last stage arrives at an error endpoint of its own. -/
def arrivingErrors (ends : Endpoints) (writes : Writes) : Bytes :=
  writes.flatMap fun (channel, bytes) =>
    if channel == .errors && ends.errorsTo == .own then bytes else []

theorem arrivingOutput_append (ends : Endpoints) (writes later : Writes) :
    arrivingOutput ends (writes ++ later) =
      arrivingOutput ends writes ++ arrivingOutput ends later :=
  List.flatMap_append

theorem arrivingErrors_append (ends : Endpoints) (writes later : Writes) :
    arrivingErrors ends (writes ++ later) =
      arrivingErrors ends writes ++ arrivingErrors ends later :=
  List.flatMap_append

/-- The endpoints have got these writes, and nothing else has been written to them. -/
structure Delivered (ends : Endpoints) (writes : Writes) (before after : Streams) : Prop where
  output : after.output = before.output ++ arrivingOutput ends writes
  errors : after.errors = before.errors ++ arrivingErrors ends writes

namespace Delivered

variable {ends : Endpoints} {writes later : Writes} {s t u : Streams}

theorem nothing (ho : t.output = s.output) (he : t.errors = s.errors) : Delivered ends [] s t :=
  ⟨ho.trans (List.append_nil _).symm, he.trans (List.append_nil _).symm⟩

theorem trans (h : Delivered ends writes s t) (h' : Delivered ends later t u) :
    Delivered ends (writes ++ later) s u := by
  constructor
  · rw [h'.output, h.output, arrivingOutput_append, List.append_assoc]
  · rw [h'.errors, h.errors, arrivingErrors_append, List.append_assoc]

theorem one (ends : Endpoints) (w : Channel × Bytes) (s : Streams) :
    Delivered ends [w] s (deliver ends [w] s) := by
  obtain ⟨channel, bytes⟩ := w
  obtain ⟨works, errorsTo⟩ := ends
  cases channel <;> cases works <;> cases errorsTo <;>
    exact ⟨by simp [deliver, arrivingOutput, Streams.writeOutput, Streams.writeErrors],
      by simp [deliver, arrivingErrors, Streams.writeOutput, Streams.writeErrors]⟩

theorem all (ends : Endpoints) (writes : Writes) (s : Streams) :
    Delivered ends writes s (deliver ends writes s) := by
  induction writes generalizing s with
  | nil => exact nothing rfl rfl
  | cons w writes ih => exact (one ends w s).trans (ih _)

end Delivered

/-- What a started program comes to. The bytes given to it are left alone if it reads a file. -/
def startedRun (program : Invocation) (given : Bytes) : StageInput → Run
  | .file content => { program.run content with rest := given }
  | .endpoint => program.run given
  | .pipe => program.run given

/-- The run that a command amounts to as a stage. A builtin reads nothing, and a program that is
not started leaves nothing but a line on its error output. -/
def stageRun (host : Host) (shell : Shell) (works isFirst : Bool) (c : Command)
    (given : Bytes) : Run :=
  match Builtin.named c.name with
  | some b =>
    let result := b.run host c.arguments .pipeline works shell
    { rest := given
      writes := [(.output, result.output)]
      child := .ended result.outcome.status }
  | none =>
    match launch host shell.workDir isFirst c with
    | .error d =>
      { rest := given, writes := [(.errors, Utf8.ofString d.line)], child := .ended d.status }
    | .ok (program, input) => startedRun program given input

/-- The runs of a pipeline every pipe of which has its reader. `works` tells whether the output
behind the last stage works. -/
def stageRuns (host : Host) (shell : Shell) (works : Bool) :
    (isFirst : Bool) → (given : Bytes) → Pipeline → List Run
  | _, _, [] => []
  | isFirst, given, c :: cs =>
    let run := stageRun host shell (!cs.isEmpty || works) isFirst c given
    run :: stageRuns host shell works false (run.written .output) cs

/-- The statuses that waiting for the stages gives. -/
def statusesOf (runs : List Run) : List Int := runs.map (·.child.wait)

/-- What the last of the runs writes. -/
def lastWrites (runs : List Run) : Writes := (runs.getLast?.map (·.writes)).getD []

variable (host : Host) (ends : Endpoints) (shell : Shell)

theorem openInput_pipe {workDir : String} {isFirst : Bool} {c : Command} {input : StageInput}
    (h : openInput host workDir isFirst c = .ok input) : input = .pipe ↔ isFirst = false := by
  simp only [openInput] at h
  cases isFirst with
  | false =>
    obtain rfl : .pipe = input := by simpa using h
    simp
  | true =>
    simp only [Bool.not_true, Bool.false_eq_true, if_false] at h
    split at h
    · obtain rfl := Except.ok.inj h
      simp
    · split at h
      · obtain rfl := Except.ok.inj h
        simp
      · cases h

theorem launch_pipe {workDir : String} {isFirst : Bool} {c : Command} {program : Invocation}
    {input : StageInput} (h : launch host workDir isFirst c = .ok (program, input)) :
    input = .pipe ↔ isFirst = false :=
  openInput_pipe host (launch_ok_iff.1 h).1

/-- Everything that may become of a command when the programs are started, and the run that it
amounts to. -/
theorem stage_cases (isFirst : Bool) (c : Command) :
    (∃ b, Builtin.named c.name = some b ∧
      (∀ isLast streams, launchStage host ends shell.workDir isFirst isLast c streams =
        (.deferred b c.arguments, streams)) ∧
      ∀ works given, stageRun host shell works isFirst c given =
        { rest := given
          writes := [(.output, (b.run host c.arguments .pipeline works shell).output)]
          child := .ended (b.run host c.arguments .pipeline works shell).outcome.status }) ∨
    (∃ d, launch host shell.workDir isFirst c = .error d ∧
      (∀ isLast streams, launchStage host ends shell.workDir isFirst isLast c streams =
        (.failed d.status, report ends isLast d.line streams)) ∧
      ∀ works given, stageRun host shell works isFirst c given =
        { rest := given
          writes := [(.errors, Utf8.ofString d.line)]
          child := .ended d.status }) ∨
    (∃ program input, (input = .pipe ↔ isFirst = false) ∧
      (∀ isLast streams, launchStage host ends shell.workDir isFirst isLast c streams =
        (.running program input, streams)) ∧
      ∀ works given, stageRun host shell works isFirst c given =
        startedRun program given input) := by
  cases hb : Builtin.named c.name with
  | some b =>
    refine Or.inl ⟨b, rfl, ?_, ?_⟩
    · intro isLast streams
      simp only [launchStage, hb]
    · intro works given
      simp only [stageRun, hb]
  | none =>
    cases hl : launch host shell.workDir isFirst c with
    | error d =>
      refine Or.inr (Or.inl ⟨d, rfl, ?_, ?_⟩)
      · intro isLast streams
        simp only [launchStage, hb, hl]
      · intro works given
        simp only [stageRun, hb, hl]
    | ok started =>
      obtain ⟨program, input⟩ := started
      refine Or.inr (Or.inr ⟨program, input, launch_pipe host hl, ?_, ?_⟩)
      · intro isLast streams
        simp only [launchStage, hb, hl]
      · intro works given
        simp only [stageRun, hb, hl]

/-- What a stage is given: the first one what the endpoint holds, any other one the pipe. -/
def Given (isFirst : Bool) (piped given : Bytes) (streams : Streams) : Prop :=
  if isFirst then streams.input = given else piped = given

theorem Given.input {isFirst : Bool} {piped given : Bytes} {s : Streams}
    (h : Given isFirst piped given s) : s.input = if isFirst then given else s.input := by
  cases isFirst with
  | true => exact h
  | false => rfl

/-- A running program comes to the run of its stage. -/
theorem runProgram_started (isLast : Bool) (program : Invocation) {input : StageInput}
    {isFirst : Bool} {piped given : Bytes} {streams : Streams}
    (hi : input = .pipe ↔ isFirst = false) (hg : Given isFirst piped given streams) :
    let run := startedRun program given input
    let done := runProgram ends isLast program input piped streams
    done.1.child = run.child ∧ done.1.writes = run.writes ∧
      done.2.input = (if isFirst then run.rest else streams.input) ∧
      Delivered ends (if isLast then run.writes else []) streams done.2 := by
  have hand : ∀ run : Run, ∀ s : Streams, s.output = streams.output → s.errors = streams.errors →
      Delivered ends (if isLast then run.writes else []) streams (handOver ends isLast run s) := by
    intro run s ho he
    have hs : Delivered ends [] streams s := .nothing ho he
    cases isLast with
    | true => exact hs.trans (.all ends run.writes s)
    | false => exact hs.trans (.nothing rfl rfl)
  cases isFirst with
  | false =>
    obtain rfl : input = .pipe := hi.2 rfl
    obtain rfl : piped = given := hg
    exact ⟨rfl, rfl, handOver_input ends streams isLast _, hand _ streams rfl rfl⟩
  | true =>
    obtain rfl : streams.input = given := hg
    cases input with
    | pipe => exact absurd (hi.1 rfl) (by decide)
    | endpoint => exact ⟨rfl, rfl, handOver_input ends _ isLast _, hand _ _ rfl rfl⟩
    | file content => exact ⟨rfl, rfl, handOver_input ends streams isLast _, hand _ streams rfl rfl⟩

/-- A program that others read behind hands its errors to the inherited stream. -/
theorem runProgram_inherited (program : Invocation) (input : StageInput) (piped : Bytes)
    (streams : Streams) :
    (runProgram ends false program input piped streams).2.inherited =
      streams.inherited ++
        (runProgram ends false program input piped streams).1.written .errors := by
  simp only [runProgram, Bool.false_eq_true, if_false, Streams.writeInherited]
  split <;> rfl

/-- What the stages leave of the endpoint, which only a first stage reads. -/
def inputAfter (isFirst : Bool) (runs : List Run) (input : Bytes) : Bytes :=
  if isFirst then (runs.head?.map (·.rest)).getD input else input

/-- A completed pipeline has come to the runs of its stages; the endpoints had got the first of
the last writes before. -/
structure Completed (ends : Endpoints) (isFirst : Bool) (runs : List Run) (early : Writes)
    (before : Streams) (done : Job × Streams) : Prop where
  statuses : done.1.statuses = statusesOf runs
  input : done.2.input = inputAfter isFirst runs before.input
  delivered : ∃ late, lastWrites runs = early ++ late ∧ Delivered ends late before done.2

/-- What the three passes over a pipeline do whose pipes have their readers. Only the last one looks
at the streams, where the first stage may read the endpoint. -/
structure Prepared (isFirst : Bool) (p : Pipeline) (stages : List Stage) (ready : List Ready)
    (early : Writes) : Prop where
  launched : ∀ s, (launchStages host ends shell.workDir isFirst p s).1 = stages
  built : ∀ s, (runBuiltins host ends shell (reached ends) stages s).1 = ready
  delivered : ∀ s, Delivered ends early s (runBuiltins host ends shell (reached ends) stages
    (launchStages host ends shell.workDir isFirst p s).2).2
  completed : ∀ piped given s, Given isFirst piped given s →
    Completed ends isFirst (stageRuns host shell ends.outputWorks isFirst given p) early s
      (complete ends piped ready s)

variable {host ends shell}

/-- A stage that writes to no endpoint, before the stages behind it. -/
theorem Completed.cons {isFirst : Bool} {run : Run} {runs : List Run} {early : Writes}
    {before between : Streams} {done : Job × Streams} {stage : Job.Stage} (hne : runs ≠ [])
    (hw : stage.wait = run.child.wait)
    (hi : between.input = if isFirst then run.rest else before.input)
    (hd : Delivered ends [] before between) (h : Completed ends false runs early between done) :
    Completed ends isFirst (run :: runs) early before (⟨stage :: done.1.stages⟩, done.2) := by
  obtain ⟨late, hlate, hdel⟩ := h.delivered
  refine ⟨?_, h.input.trans hi, late, ?_, hd.trans hdel⟩
  · have hrest : done.1.stages.map (·.wait) = statusesOf runs := h.statuses
    simp only [Job.statuses, List.map_cons, hw, hrest]
    rfl
  · obtain ⟨r, rs, rfl⟩ := List.exists_cons_of_ne_nil hne
    exact hlate

variable (host ends shell)

theorem prepared_last (isFirst : Bool) (c : Command) :
    ∃ stages ready early, Prepared host ends shell isFirst [c] stages ready early := by
  rcases stage_cases host ends shell isFirst c with
    ⟨b, -, hlaunch, hrun⟩ | ⟨d, -, hlaunch, hrun⟩ | ⟨program, input, hi, hlaunch, hrun⟩
  · let result := b.run host c.arguments .pipeline ends.outputWorks shell
    refine ⟨[.deferred b c.arguments], [.finished result.outcome.status []],
      [(.output, result.output)], ?_, fun s => rfl, ?_, ?_⟩
    · intro s
      simp only [launchStages, hlaunch]
    · intro s
      simp only [launchStages, hlaunch]
      exact .one ends _ s
    · intro piped given s hg
      simp only [stageRuns, hrun]
      exact ⟨rfl, hg.input, [], rfl, .nothing rfl rfl⟩
  · refine ⟨[.failed d.status], [.finished d.status []], [(.errors, Utf8.ofString d.line)],
      ?_, fun s => rfl, ?_, ?_⟩
    · intro s
      simp only [launchStages, hlaunch]
    · intro s
      simp only [launchStages, hlaunch]
      exact .one ends _ s
    · intro piped given s hg
      simp only [stageRuns, hrun]
      exact ⟨rfl, hg.input, [], rfl, .nothing rfl rfl⟩
  · refine ⟨[.running program input], [.running program input], [], ?_, fun s => rfl, ?_, ?_⟩
    · intro s
      simp only [launchStages, hlaunch]
    · intro s
      simp only [launchStages, hlaunch]
      exact .nothing rfl rfl
    · intro piped given s hg
      obtain ⟨hchild, -, hin, hdel⟩ := runProgram_started ends true program hi hg
      simp only [stageRuns, hrun]
      exact ⟨congrArg (fun child => [Child.wait child]) hchild, hin, _, rfl, hdel⟩

/-- What the last pass over a stage does that others stand behind: what its run has written goes to
the pipe, and those of its errors that have not been inherited before are now. -/
def PassedOn (ends : Endpoints) (isFirst : Bool) (run : Run) (early : List Bytes) (made : Ready)
    (piped : Bytes) (s : Streams) : Prop :=
  ∃ entry t late,
    (∀ next ready, complete ends piped (made :: next :: ready) s =
      (⟨entry :: (complete ends (run.written .output) (next :: ready) t).1.stages⟩,
        (complete ends (run.written .output) (next :: ready) t).2)) ∧
    entry.wait = run.child.wait ∧
    t.input = (if isFirst then run.rest else s.input) ∧ Delivered ends [] s t ∧
    t.inherited = s.inherited ++ late.flatten ∧ early ++ late = [run.written .errors]

/-- What the three passes over such a stage do. It writes to no endpoint. -/
structure Middle (isFirst : Bool) (c : Command) (stage : Stage) (made : Ready)
    (early : List Bytes) : Prop where
  launched : ∀ s, ∃ t, launchStage host ends shell.workDir isFirst false c s = (stage, t) ∧
    Delivered ends [] s t ∧ t.inherited = s.inherited ++ early.flatten
  built : ∀ next stages s, runBuiltins host ends shell (reached ends) (stage :: next :: stages) s =
    (made :: (runBuiltins host ends shell (reached ends) (next :: stages) s).1,
      (runBuiltins host ends shell (reached ends) (next :: stages) s).2)
  completed : ∀ piped given s, Given isFirst piped given s →
    PassedOn ends isFirst (stageRun host shell true isFirst c given) early made piped s

/-- A stage that is over before the last pass reads nothing. -/
theorem passedOn_finished {isFirst : Bool} {run : Run} {status : Int} {output : Bytes}
    {early : List Bytes} (late : List Bytes) {piped given : Bytes} {s : Streams}
    (hg : Given isFirst piped given s) (hchild : run.child = .ended status)
    (hrest : run.rest = given) (houtput : run.written .output = output)
    (hlate : late.flatten = []) (herrors : early ++ late = [run.written .errors]) :
    PassedOn ends isFirst run early (.finished status output) piped s := by
  refine ⟨.done status, s, late, ?_, ?_, ?_, .nothing rfl rfl, ?_, herrors⟩
  · intro next ready
    rw [houtput]
    rfl
  · rw [hchild]
    rfl
  · rw [hrest]
    exact hg.input
  · rw [hlate, List.append_nil]

theorem middle_stage (isFirst : Bool) (c : Command) :
    ∃ stage made early, Middle host ends shell isFirst c stage made early := by
  rcases stage_cases host ends shell isFirst c with
    ⟨b, -, hlaunch, hrun⟩ | ⟨d, -, hlaunch, hrun⟩ | ⟨program, input, hi, hlaunch, hrun⟩
  · let result := b.run host c.arguments .pipeline true shell
    refine ⟨.deferred b c.arguments, .finished result.outcome.status result.output, [], ?_,
      fun next stages s => rfl, ?_⟩
    · intro s
      exact ⟨s, hlaunch false s, .nothing rfl rfl, (List.append_nil _).symm⟩
    · intro piped given s hg
      rw [hrun]
      exact passedOn_finished ends [[]] hg rfl rfl (List.append_nil _) rfl rfl
  · refine ⟨.failed d.status, .finished d.status [], [Utf8.ofString d.line], ?_,
      fun next stages s => rfl, ?_⟩
    · intro s
      refine ⟨_, hlaunch false s, .nothing rfl rfl, ?_⟩
      rw [List.flatten_singleton]
      rfl
    · intro piped given s hg
      rw [hrun]
      exact passedOn_finished ends [] hg rfl rfl rfl rfl
        (congrArg (fun line => [line]) (List.append_nil _).symm)
  · refine ⟨.running program input, .running program input, [], ?_, fun next stages s => rfl, ?_⟩
    · intro s
      exact ⟨s, hlaunch false s, .nothing rfl rfl, (List.append_nil _).symm⟩
    · intro piped given s hg
      obtain ⟨hchild, hwrites, hin, hdel⟩ := runProgram_started ends false program hi hg
      have hwritten : ∀ channel, (runProgram ends false program input piped s).1.written channel =
          (startedRun program given input).written channel := by
        intro channel
        simp only [Run.written, hwrites]
      rw [hrun]
      refine ⟨.running (runProgram ends false program input piped s).1.child,
        (runProgram ends false program input piped s).2,
        [(startedRun program given input).written .errors], ?_, congrArg Child.wait hchild, hin,
        hdel, ?_, rfl⟩
      · intro next ready
        rw [← hwritten]
        rfl
      · rw [runProgram_inherited, hwritten, List.flatten_singleton]

/-- A stage before others adds nothing to what the endpoints get. -/
theorem prepared_cons (isFirst : Bool) (c : Command) {d : Command} {ds : Pipeline}
    {stages : List Stage} {ready : List Ready} {early : Writes}
    (h : Prepared host ends shell false (d :: ds) stages ready early) :
    ∃ stage made, Prepared host ends shell isFirst (c :: d :: ds) (stage :: stages)
      (made :: ready) early := by
  obtain ⟨t, ts, rfl⟩ : ∃ t ts, stages = t :: ts := ⟨_, _, (h.launched {}).symm⟩
  obtain ⟨r, rs, rfl⟩ : ∃ r rs, ready = r :: rs := ⟨_, _, (h.built {}).symm⟩
  obtain ⟨stage, made, _, hmiddle⟩ := middle_stage host ends shell isFirst c
  refine ⟨stage, made, ?_, ?_, ?_, ?_⟩
  · intro s
    obtain ⟨later, hl, -⟩ := hmiddle.launched s
    rw [launchStages, List.isEmpty_cons, hl]
    exact congrArg _ (h.launched later)
  · intro s
    rw [hmiddle.built]
    exact congrArg _ (h.built s)
  · intro s
    obtain ⟨later, hl, hd, -⟩ := hmiddle.launched s
    rw [launchStages, List.isEmpty_cons, hl, hmiddle.built]
    exact hd.trans (h.delivered later)
  · intro piped given s hg
    obtain ⟨entry, between, _, hc, hw, hi, hd, -⟩ := hmiddle.completed piped given s hg
    rw [hc]
    exact .cons (List.cons_ne_nil _ _) hw hi hd (h.completed _ _ between rfl)

theorem prepared (isFirst : Bool) (c : Command) (cs : Pipeline) :
    ∃ stages ready early, Prepared host ends shell isFirst (c :: cs) stages ready early := by
  induction cs generalizing isFirst c with
  | nil => exact prepared_last host ends shell isFirst c
  | cons d ds ih =>
    obtain ⟨stages, ready, early, h⟩ := ih false d
    obtain ⟨stage, made, hcons⟩ := prepared_cons host ends shell isFirst c h
    exact ⟨_, _, _, hcons⟩

/-- If every pipe has its reader, a job holds the statuses of the runs from left to right. Of all
that is written, the endpoints get the writes of the last run, and the first run alone reads the
endpoint. -/
theorem jobReached_runs {p : Pipeline} (hp : p ≠ []) (s : Streams) :
    let runs := stageRuns host shell ends.outputWorks true s.input p
    (jobReached host ends shell p s).1.statuses = statusesOf runs ∧
      (jobReached host ends shell p s).2.input = inputAfter true runs s.input ∧
      Delivered ends (lastWrites runs) s (jobReached host ends shell p s).2 := by
  obtain ⟨c, cs, rfl⟩ := List.exists_cons_of_ne_nil hp
  obtain ⟨stages, ready, early, h⟩ := prepared host ends shell true c cs
  have hlaunched := h.launched s
  have hinput := launchStages_input host ends s shell.workDir true (c :: cs)
  have hdel := h.delivered s
  rcases hl : launchStages host ends shell.workDir true (c :: cs) s with ⟨started, launched⟩
  rw [hl] at hlaunched hinput hdel
  obtain rfl : started = stages := hlaunched
  have hbuilt := h.built launched
  have hkept := runBuiltins_input host ends shell launched (reached ends) started
  rcases hb : runBuiltins host ends shell (reached ends) started launched with ⟨made, later⟩
  rw [hb] at hbuilt hkept hdel
  obtain rfl : made = ready := hbuilt
  have hsame : later.input = s.input := hkept.trans hinput
  have hjob : jobReached host ends shell (c :: cs) s = complete ends [] made later := by
    simp only [jobReached, finish, hl, hb]
  have hdone := h.completed [] s.input later hsame
  obtain ⟨late, hlate, hlast⟩ := hdone.delivered
  rw [hjob]
  refine ⟨hdone.statuses, ?_, ?_⟩
  · rw [hdone.input, hsame]
  · rw [hlate]
    exact hdel.trans hlast

/-- A job comes to the runs of its stages, whether its pipes have their readers or not. -/
theorem job_runs {p : Pipeline} (hp : p ≠ []) (s : Streams) :
    let runs := stageRuns host shell ends.outputWorks true s.input p
    Status.ofStages (job host ends p shell s).1.statuses = Status.ofStages (statusesOf runs) ∧
      (job host ends p shell s).2.input = inputAfter true runs s.input ∧
      Delivered ends (lastWrites runs) s (job host ends p shell s).2 := by
  obtain ⟨hstatuses, hinput, hdel⟩ := jobReached_runs host ends shell hp s
  obtain ⟨hstreams, hstatus, -, -⟩ := job_heard host ends shell p s
  rw [hstreams, hstatus, hstatuses]
  exact ⟨rfl, hinput, hdel⟩

/-- A pipeline that is a builtin and nothing else. -/
def Lone (p : Pipeline) : Prop := ∃ c b, p = [c] ∧ Builtin.named c.name = some b

/-- A pipeline that is run in stages never fails and never touches the shell. -/
theorem run_runs {p : Pipeline} (hp : p ≠ []) (hl : ¬ Lone p) (s : Streams) :
    let runs := stageRuns host shell ends.outputWorks true s.input p
    let done := run host ends p shell s
    done.result = .ok (Status.ofStages (statusesOf runs)) ∧ done.shell = shell ∧
      done.streams.input = inputAfter true runs s.input ∧
      Delivered ends (lastWrites runs) s done.streams := by
  obtain ⟨hstatus, hinput, hdel⟩ := job_runs host ends shell hp s
  rcases run_cases host ends shell p with rfl | hlone | hstages
  · exact absurd rfl hp
  · exact absurd hlone hl
  · simp only [hstages, runStages, Job.wait, hstatus]
    exact ⟨trivial, trivial, hinput, hdel⟩

section Lists

variable (works isFirst : Bool) (given : Bytes)

theorem length_stageRuns (p : Pipeline) :
    (stageRuns host shell works isFirst given p).length = p.length := by
  induction p generalizing isFirst given with
  | nil => rfl
  | cons c cs ih => exact congrArg (· + 1) (ih false _)

/-- What the stage at a place is given. -/
def givenAt (runs : List Run) (given : Bytes) : Nat → Bytes
  | 0 => given
  | i + 1 => (runs[i]?.map (·.written .output)).getD []

/-- The run at a place is that of the command at this place, on what the run before has written. -/
theorem getElem?_stageRuns {p : Pipeline} {i : Nat} {c : Command} (h : p[i]? = some c) :
    (stageRuns host shell works isFirst given p)[i]? =
      some (stageRun host shell (decide (i + 1 < p.length) || works) (isFirst && i == 0) c
        (givenAt (stageRuns host shell works isFirst given p) given i)) := by
  induction p generalizing isFirst given i with
  | nil => simp at h
  | cons d ds ih =>
    cases i with
    | zero =>
      obtain rfl : d = c := by simpa using h
      cases ds <;> simp [stageRuns, givenAt]
    | succ i =>
      have htail := ih false ((stageRun host shell (!ds.isEmpty || works) isFirst d given).written
        .output) (i := i) (by simpa using h)
      have hlast : decide (i + 1 + 1 < (d :: ds).length) = decide (i + 1 < ds.length) := by simp
      rw [stageRuns, List.getElem?_cons_succ, htail, hlast]
      cases i <;> simp [givenAt]

end Lists

/-- A job holds the statuses of the runs, but that a builtin fails which nobody reads. -/
theorem job_statuses {p : Pipeline} (hp : p ≠ []) (s : Streams) :
    FailedAt (Unread host shell p) (job host ends p shell s).1.statuses
      (statusesOf (stageRuns host shell ends.outputWorks true s.input p)) := by
  obtain ⟨hstatuses, -, -⟩ := jobReached_runs host ends shell hp s
  obtain ⟨-, -, hkept, hunread⟩ := job_heard host ends shell p s
  rw [← hstatuses]
  intro i
  simp only [Job.statuses, List.getElem?_map]
  by_cases hi : Unread host shell p i
  · obtain ⟨⟨c, b, hc, hb⟩, d, hfail⟩ := id hi
    have hlt : i + 1 < p.length := by
      obtain ⟨next, hnext, -⟩ := hfail
      exact (List.getElem?_eq_some_iff.1 hnext).1
    have hideal : (jobReached host ends shell p s).1.statuses[i]? =
        some (b.run host c.arguments .pipeline true shell).outcome.status := by
      rw [hstatuses, statusesOf, List.getElem?_map,
        getElem?_stageRuns host shell ends.outputWorks true s.input hc, decide_eq_true hlt]
      simp only [stageRun, hb, Bool.true_or, Option.map_some, Child.wait_ended]
    rw [Job.statuses, List.getElem?_map] at hideal
    rw [hunread i c b d hc hb hfail, hideal]
    rcases builtin_unread host shell b c.arguments with hsame | ⟨hone, hzero⟩
    · exact Or.inl (congrArg some hsame)
    · exact Or.inr ⟨hi, congrArg some hone, congrArg some hzero⟩
  · exact Or.inl (congrArg (Option.map (·.wait)) (hkept i hi))

section Failures

variable {host : Host} {shell : Shell} {p : Pipeline}

theorem Fails.staged {i : Nat} {d : Diagnostic} (h : Fails host shell p i d) :
    p ≠ [] ∧ ¬ Lone p := by
  obtain ⟨c, hc, hb, -⟩ := h
  constructor
  · rintro rfl
    simp at hc
  · rintro ⟨c', b, rfl, hb'⟩
    obtain rfl : c = c' := List.mem_singleton.1 (List.mem_of_getElem? hc)
    rw [hb] at hb'
    cases hb'

/-- What a stage that fails amounts to: it leaves what it is given, and only complains. -/
theorem Diagnosed.stageRun {c : Command} {d : Diagnostic} {isFirst : Bool}
    (hb : Builtin.named c.name = none) (h : Diagnosed host shell.workDir isFirst c d)
    (works : Bool) (given : Bytes) : stageRun host shell works isFirst c given =
      { rest := given, writes := [(.errors, Utf8.ofString d.line)], child := .ended d.status } := by
  simp only [Execution.stageRun, hb, launch_error_iff.2 h]

end Failures

end Execution
end PipeShell
