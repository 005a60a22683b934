import PipeShell.Proofs.Shell.Directory
import PipeShell.Proofs.Shell.StandIn

/-! A pipeline whose stages are run in turn, from left to right, each to its end before the next one
is begun. Putting the builtins off until all programs have been started comes to the same, even
where the pipe that a builtin writes to has lost its reader by then. -/
namespace PipeShell
namespace Execution

/-- What a stage that has come to its end leaves to those behind it. -/
structure Left where
  status : Int
  piped : Bytes
  shell : Shell
  streams : Streams

/-- Runs one stage to its end. A builtin runs on the shell that the pipeline has found, and takes
nothing of what it is given. -/
def runStage (host : Host) (ends : Endpoints) (found : Shell) (isFirst isLast : Bool) (c : Command)
    (given : Bytes) (shell : Shell) (streams : Streams) : Left :=
  match Builtin.named c.name with
  | some b =>
    let result := b.run host c.arguments .pipeline (!isLast || ends.outputWorks) found
    { status := result.outcome.status
      piped := result.output
      shell := result.shell
      streams := if isLast then (streams.writeOutput ends result.output).getD streams else streams }
  | none =>
    match launch host found.workDir isFirst c with
    | .error d =>
      { status := d.status, piped := [], shell, streams := report ends isLast d.line streams }
    | .ok (program, input) =>
      let (run, streams) := runProgram ends isLast program input given streams
      { status := run.child.wait, piped := run.written .output, shell, streams }

/-- Runs stages in turn, each on all that the one before has left in the pipe: their statuses, the
shell and the streams. -/
def runEach (host : Host) (ends : Endpoints) (found : Shell) :
    (isFirst : Bool) → (given : Bytes) → Pipeline → Shell → Streams → List Int × Shell × Streams
  | _, _, [], shell, streams => ([], shell, streams)
  | isFirst, given, c :: cs, shell, streams =>
    let left := runStage host ends found isFirst cs.isEmpty c given shell streams
    let (statuses, last) := runEach host ends found false left.piped cs left.shell left.streams
    (left.status :: statuses, last)

def runInTurn (host : Host) (ends : Endpoints) (p : Pipeline) (shell : Shell) (streams : Streams) :
    Execution :=
  let (statuses, last, streams) := runEach host ends shell true [] p shell streams
  ⟨.ok (Status.ofStages statuses), last, streams⟩

variable (host : Host) (ends : Endpoints) (shell : Shell)

theorem runProgram_overheard (isLast : Bool) (program : Invocation) (input : StageInput)
    (piped : Bytes) (s : Streams) :
    (runProgram ends isLast program input piped s).2.inherited = s.inherited ++
      if isLast then [] else (runProgram ends isLast program input piped s).1.written .errors := by
  by_cases hi : input = .endpoint
  · subst hi
    rw [runProgram_endpoint]
    exact (adds_handOver ends isLast _ s).inherited
  · obtain ⟨run, hrun⟩ := runProgram_elsewhere ends isLast program piped hi
    rw [hrun]
    exact (adds_handOver ends isLast run s).inherited

/-- A stage that has come to the end of its run. -/
structure Left.Ended (ends : Endpoints) (shell : Shell) (isFirst isLast : Bool) (run : Run)
    (before : Streams) (left : Left) : Prop where
  status : left.status = run.child.wait
  piped : left.piped = run.written .output
  shell : left.shell = shell
  input : left.streams.input = if isFirst then run.rest else before.input
  delivered : Delivered ends (if isLast then run.writes else []) before left.streams
  inherited :
    left.streams.inherited = before.inherited ++ if isLast then [] else run.written .errors

variable {host ends shell} {isFirst isLast : Bool} {c : Command} {piped given : Bytes} {s : Streams}

/-- A stage that takes nothing of what it is given and hands over what it has written. -/
theorem Left.Ended.handOver (run : Run) {left : Left} (hg : Given isFirst piped given s)
    (hrest : run.rest = given) (hstatus : left.status = run.child.wait)
    (hpiped : left.piped = run.written .output) (hshell : left.shell = shell)
    (hstreams : left.streams = Execution.handOver ends isLast run s) :
    left.Ended ends shell isFirst isLast run s := by
  have hadds := adds_handOver ends isLast run s
  rw [← hstreams] at hadds
  refine ⟨hstatus, hpiped, hshell, ?_, hadds.delivered, hadds.inherited⟩
  rw [hadds.input, hrest]
  exact hg.input

variable (host ends shell isLast) in
/-- A stage in its turn comes to the end of its run. -/
theorem runStage_ended (hg : Given isFirst piped given s) :
    (runStage host ends shell isFirst isLast c piped shell s).Ended ends shell isFirst isLast
      (stageRun host shell (!isLast || ends.outputWorks) isFirst c given) s := by
  cases hb : Builtin.named c.name with
  | some b =>
    let result := b.run host c.arguments .pipeline (!isLast || ends.outputWorks) shell
    let run : Run := { rest := given, writes := [(.output, result.output)]
                       child := .ended result.outcome.status }
    have hstreams : (if isLast then (s.writeOutput ends result.output).getD s else s) =
        handOver ends isLast run s := by
      cases isLast with
      | true => rfl
      | false => exact (congrArg (Streams.mk _ _ _) (List.append_nil _)).symm
    simp only [runStage, stageRun, hb]
    exact .handOver run hg rfl rfl (List.append_nil _).symm
      (pipeline_shell host shell b _ _) hstreams
  | none =>
    cases hl : launch host shell.workDir isFirst c with
    | error d =>
      simp only [runStage, stageRun, hb, hl]
      exact .handOver _ hg rfl rfl rfl rfl (report_eq d.line s)
    | ok started =>
      obtain ⟨program, input⟩ := started
      obtain ⟨hchild, hwrites, hinput, hdel⟩ :=
        runProgram_started ends isLast program (launch_pipe host hl) hg
      have hover := runProgram_overheard ends isLast program input piped s
      have hwritten : ∀ channel, (runProgram ends isLast program input piped s).1.written channel =
          (startedRun program given input).written channel := by
        intro channel
        simp only [Run.written, hwrites]
      rw [hwritten] at hover
      simp only [runStage, stageRun, hb, hl]
      exact ⟨congrArg Child.wait hchild, hwritten .output, rfl, hinput, hdel, hover⟩

/-- Stages that have come to the ends of their runs, one after the other. -/
structure EachEnded (ends : Endpoints) (shell : Shell) (isFirst : Bool) (runs : List Run)
    (before : Streams) (done : List Int × Shell × Streams) : Prop where
  statuses : done.1 = statusesOf runs
  shell : done.2.1 = shell
  input : done.2.2.input = inputAfter isFirst runs before.input
  delivered : Delivered ends (lastWrites runs) before done.2.2
  inherited : done.2.2.inherited = before.inherited ++ (asides runs).flatten

theorem EachEnded.cons {run : Run} {runs : List Run} {left : Left}
    {done : List Int × Shell × Streams} (hlast : runs.isEmpty = isLast)
    (hleft : left.Ended ends shell isFirst isLast run s)
    (h : EachEnded ends shell false runs left.streams done) :
    EachEnded ends shell isFirst (run :: runs) s (left.status :: done.1, done.2) := by
  have hstatuses : left.status :: done.1 = statusesOf (run :: runs) := by
    rw [hleft.status, h.statuses]
    rfl
  have hdel := hleft.delivered.trans h.delivered
  have hinherited := h.inherited
  rw [hleft.inherited] at hinherited
  subst hlast
  refine ⟨hstatuses, h.shell, h.input.trans hleft.input, ?_, ?_⟩
  · cases runs with
    | nil =>
      have hone : (if ([] : List Run).isEmpty then run.writes else []) ++ lastWrites [] =
          lastWrites [run] := List.append_nil _
      rwa [hone] at hdel
    | cons next runs => exact hdel
  · cases runs with
    | nil =>
      rw [hinherited, List.isEmpty_nil, if_pos rfl, List.append_nil]
      rfl
    | cons next runs =>
      rw [hinherited, asides_cons _ (List.cons_ne_nil _ _), List.flatten_cons, List.append_assoc]
      rfl

variable (host ends shell) in
theorem runEach_ended (p : Pipeline) (hg : Given isFirst piped given s) :
    EachEnded ends shell isFirst (stageRuns host shell ends.outputWorks isFirst given p) s
      (runEach host ends shell isFirst piped p shell s) := by
  induction p generalizing isFirst piped given s with
  | nil =>
    refine ⟨rfl, rfl, ?_, .nothing rfl rfl, (List.append_nil _).symm⟩
    cases isFirst <;> rfl
  | cons c cs ih =>
    have hleft := runStage_ended host ends shell cs.isEmpty (c := c) hg
    rw [runEach, stageRuns, hleft.shell]
    refine .cons ?_ hleft (ih hleft.piped)
    cases cs <;> rfl

section Readers

/-- Runs a pipeline, some of whose stages have lost the readers behind them when the builtins run,
besides those whose readers could not be started. -/
def runLosing (host : Host) (ends : Endpoints) (lost : Nat → Bool) (p : Pipeline) (shell : Shell)
    (streams : Streams) : Execution :=
  let (job, streams) := jobLosing host ends shell lost p streams
  ⟨.ok (Status.ofStages job.wait.1), shell, streams⟩

theorem runLosing_eq {lost : Nat → Bool} {p : Pipeline} (hp : p ≠ []) (hl : ¬ Lone p)
    (h : Unheard lost (launchStages host ends shell.workDir true p s).1) :
    runLosing host ends lost p shell s = run host ends p shell s := by
  obtain ⟨hstreams, hstatus, -⟩ := jobLosing_eq host ends shell h
  rcases run_cases host ends shell p with rfl | hlone | hstages
  · exact absurd rfl hp
  · exact absurd hlone hl
  · simp only [hstages, runLosing, runStages, Job.wait, hstreams, hstatus]

end Readers

/-- A pipeline of two or more commands comes to the same as when its stages are run in turn, each to
its end before the next one is begun and on all that the one before has written. It still does when
some builtins write to pipes that have lost their readers by the time they run, as long as nothing
of what they write would have been read; nothing tells of it but the statuses of such builtins. -/
theorem run_inTurn (host : Host) (ends : Endpoints) (shell : Shell) (p : Pipeline) (s : Streams)
    (hp : 2 ≤ p.length) :
    let done := run host ends p shell s
    SameButOrder done (runInTurn host ends p shell s) ∧
      FailedAt (Unread host shell p) (job host ends p shell s).1.wait.1
        (runEach host ends shell true [] p shell s).1 ∧
      ∀ lost, Unheard lost (launchStages host ends shell.workDir true p s).1 →
        runLosing host ends lost p shell s = done := by
  intro done
  have hne : p ≠ [] := by
    rintro rfl
    cases hp
  have hl : ¬ Lone p := by
    rintro ⟨c, b, rfl, -⟩
    exact absurd hp (Nat.not_succ_le_self 1)
  obtain ⟨hresult, hshell, hinput, hdel⟩ := run_runs host ends shell hne hl s
  obtain ⟨pieces, hperm, hinherited⟩ := job_inherited host ends shell p s
  rw [← run_streams host ends shell hl s] at hinherited
  have hgiven : Given true [] s.input s := rfl
  have hturn := runEach_ended host ends shell p hgiven
  refine ⟨⟨?_, hshell.trans hturn.shell.symm, ?_, ?_, ?_, ?_⟩, ?_, ?_⟩
  · rw [hresult, ← hturn.statuses]
    rfl
  · exact hdel.output.trans hturn.delivered.output.symm
  · exact hdel.errors.trans hturn.delivered.errors.symm
  · exact hinput.trans hturn.input.symm
  · have hasides : (runInTurn host ends p shell s).streams.inherited = _ := hturn.inherited
    rw [hinherited, hasides]
    exact hperm.flatten.append_left s.inherited
  · rw [hturn.statuses]
    exact job_statuses host ends shell hne s
  · intro lost hlost
    exact runLosing_eq hne hl hlost

/-- Builtins on both sides of a program that is not there, and one behind a program that counts. -/
def alternating : Pipeline :=
  [{ name := "rc" }, { name := "/none" }, { name := "cd", arguments := ["nowhere"] },
    { name := "/count" }, { name := "rc" }]

/-- The first of them writes to a pipe that nobody reads. -/
theorem run_inTurn_alternating :
    let shell : Shell := { workDir := "/", home := "/", lastStatus := 7 }
    2 ≤ alternating.length ∧
      Unheard (· == 0) (launchStages threePrograms {} "/" true alternating {}).1 ∧
      (job threePrograms {} alternating shell {}).1.wait.1 = [1, 127, 1, 3, 0] ∧
      (runEach threePrograms {} shell true [] alternating shell {}).1 = [0, 127, 1, 3, 0] ∧
      (runInTurn threePrograms {} alternating shell {}).streams.output = [0x37, 0x0A] ∧
      (runLosing threePrograms {} (· == 0) alternating shell {}).streams.output = [0x37, 0x0A] := by
  intro shell
  have hlost : Unheard (· == 0) (launchStages threePrograms {} "/" true alternating {}).1 := by
    intro i reader hi hreader
    obtain rfl := beq_iff_eq.1 hi
    obtain rfl := Option.some.inj hreader
    exact trivial
  obtain ⟨hsame, -, hlosing⟩ := run_inTurn threePrograms {} shell alternating {} (by decide)
  have houtput : (run threePrograms {} alternating shell {}).streams.output = [0x37, 0x0A] := by
    decide
  refine ⟨by decide, hlost, by decide, by decide, hsame.output.symm.trans houtput, ?_⟩
  rw [hlosing _ hlost]
  exact houtput

end Execution
end PipeShell
