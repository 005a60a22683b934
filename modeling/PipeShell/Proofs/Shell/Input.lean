import PipeShell.Proofs.Process.Idle
import PipeShell.Shell.Execution

/-! What a pipeline takes of the input endpoint. Only a running stage reads it; everything else
leaves it as it is and does the same whatever it holds. -/
namespace PipeShell

namespace Streams

/-- The streams with other bytes to read. -/
def withInput (input : Bytes) (s : Streams) : Streams := { s with input }

@[simp]
theorem withInput_input (input : Bytes) (s : Streams) : (s.withInput input).input = input := rfl

@[simp]
theorem withInput_self (s : Streams) : s.withInput s.input = s := rfl

/-- Streams that come out the same for what the endpoint holds anyway. -/
theorem input_of_withInput {s later : Streams} (h : later = later.withInput s.input) :
    later.input = s.input := by
  rw [h, withInput_input]

variable (ends : Endpoints) (bytes input : Bytes) (s : Streams)

theorem writeOutput_withInput : (s.withInput input).writeOutput ends bytes =
    (s.writeOutput ends bytes).map (withInput input) := by
  simp only [writeOutput, withInput]
  split <;> rfl

theorem writeErrors_withInput : (s.withInput input).writeErrors ends bytes =
    (s.writeErrors ends bytes).map (withInput input) := by
  simp only [writeErrors]
  split
  · rfl
  · exact writeOutput_withInput ends bytes input s
  · rfl

theorem writeInherited_withInput :
    (s.withInput input).writeInherited bytes = (s.writeInherited bytes).withInput input := rfl

end Streams

namespace Execution

open Streams

variable (host : Host) (ends : Endpoints) (shell : Shell) (input : Bytes) (streams : Streams)

theorem getD_withInput (written : Option Streams) :
    (written.map (withInput input)).getD (streams.withInput input) =
      (written.getD streams).withInput input := by
  cases written <;> rfl

theorem report_withInput (isLast : Bool) (line : String) :
    report ends isLast line (streams.withInput input) =
      (report ends isLast line streams).withInput input := by
  simp only [report]
  split
  · rw [writeErrors_withInput, getD_withInput]
  · exact writeInherited_withInput (Utf8.ofString line) input streams

theorem launchStage_withInput (workDir : String) (isFirst isLast : Bool) (c : Command) :
    launchStage host ends workDir isFirst isLast c (streams.withInput input) =
      ((launchStage host ends workDir isFirst isLast c streams).1,
        (launchStage host ends workDir isFirst isLast c streams).2.withInput input) := by
  simp only [launchStage]
  split
  · rfl
  · split
    · rfl
    · rw [report_withInput]

theorem launchStages_withInput (workDir : String) (isFirst : Bool) (p : Pipeline) :
    launchStages host ends workDir isFirst p (streams.withInput input) =
      ((launchStages host ends workDir isFirst p streams).1,
        (launchStages host ends workDir isFirst p streams).2.withInput input) := by
  induction p generalizing isFirst streams with
  | nil => rfl
  | cons c cs ih => simp only [launchStages, launchStage_withInput, ih]

theorem launchStages_input (workDir : String) (isFirst : Bool) (p : Pipeline) :
    (launchStages host ends workDir isFirst p streams).2.input = streams.input := by
  have h := launchStages_withInput host ends streams.input streams workDir isFirst p
  exact input_of_withInput (congrArg Prod.snd h)

theorem runDeferred_withInput (isLast works : Bool) (b : Builtin) (arguments : List String) :
    runDeferred host ends shell isLast works b arguments (streams.withInput input) =
      ((runDeferred host ends shell isLast works b arguments streams).1,
        (runDeferred host ends shell isLast works b arguments streams).2.withInput input) := by
  simp only [runDeferred]
  split
  · rw [writeOutput_withInput, getD_withInput]
  · rfl

theorem runBuiltins_withInput (works : List Stage → Bool) (stages : List Stage) :
    runBuiltins host ends shell works stages (streams.withInput input) =
      ((runBuiltins host ends shell works stages streams).1,
        (runBuiltins host ends shell works stages streams).2.withInput input) := by
  induction stages generalizing streams with
  | nil => rfl
  | cons stage stages ih =>
    cases stage with
    | failed status => simp only [runBuiltins, ih]
    | running program input => simp only [runBuiltins, ih]
    | deferred b arguments => simp only [runBuiltins, runDeferred_withInput, ih]

theorem runBuiltins_input (works : List Stage → Bool) (stages : List Stage) :
    (runBuiltins host ends shell works stages streams).2.input = streams.input := by
  have h := runBuiltins_withInput host ends shell streams.input streams works stages
  exact input_of_withInput (congrArg Prod.snd h)

theorem deliver_withInput (writes : List (Channel × Bytes)) :
    deliver ends writes (streams.withInput input) =
      (deliver ends writes streams).withInput input := by
  induction writes generalizing streams with
  | nil => rfl
  | cons w writes ih =>
    obtain ⟨channel, bytes⟩ := w
    rw [deliver, List.foldl_cons, deliver, List.foldl_cons]
    cases channel with
    | output =>
      simp only [writeOutput_withInput, getD_withInput]
      exact ih _
    | errors =>
      simp only [writeErrors_withInput, getD_withInput]
      exact ih _

/-- Puts what a run has written where it belongs. -/
def handOver (isLast : Bool) (run : Run) (streams : Streams) : Streams :=
  if isLast then deliver ends run.writes streams else streams.writeInherited (run.written .errors)

theorem handOver_withInput (isLast : Bool) (run : Run) :
    handOver ends isLast run (streams.withInput input) =
      (handOver ends isLast run streams).withInput input := by
  cases isLast with
  | true => exact deliver_withInput ends input streams run.writes
  | false => exact writeInherited_withInput (run.written .errors) input streams

theorem handOver_input (isLast : Bool) (run : Run) :
    (handOver ends isLast run streams).input = streams.input := by
  have h := handOver_withInput ends streams.input streams isLast run
  exact input_of_withInput h

section Stages

variable (isLast : Bool) (program : Invocation) (source : StageInput) (piped : Bytes)
  (stages : List Ready)

theorem runProgram_endpoint : runProgram ends isLast program .endpoint piped streams =
    (program.run streams.input,
      (handOver ends isLast (program.run streams.input) streams).withInput
        (program.run streams.input).rest) :=
  congrArg (Prod.mk _) (handOver_withInput ends _ streams isLast _)

/-- A program that does not read the endpoint runs the same whatever the streams are. -/
theorem runProgram_elsewhere {source : StageInput} (h : source ≠ .endpoint) : ∃ run, ∀ streams,
    runProgram ends isLast program source piped streams =
      (run, handOver ends isLast run streams) := by
  cases source with
  | endpoint => exact absurd rfl h
  | pipe => exact ⟨program.run piped, fun _ => rfl⟩
  | file content => exact ⟨program.run content, fun _ => rfl⟩

theorem runProgram_suffix :
    (runProgram ends isLast program source piped streams).2.input <:+ streams.input := by
  by_cases h : source = .endpoint
  · subst source
    simpa only [runProgram_endpoint, withInput_input] using program.run_suffix streams.input
  · obtain ⟨run, hrun⟩ := runProgram_elsewhere ends isLast program piped h
    simp only [hrun, handOver_input, List.suffix_rfl]

/-- A program that takes nothing from the endpoint runs the same when the endpoint is empty. -/
theorem runProgram_idle
    (h : (runProgram ends isLast program source piped streams).2.input = streams.input) :
    ∃ rest, runProgram ends isLast program source piped (streams.withInput []) =
      ({ (runProgram ends isLast program source piped streams).1 with rest },
        (runProgram ends isLast program source piped streams).2.withInput []) := by
  by_cases hs : source = .endpoint
  · subst source
    simp only [runProgram_endpoint, withInput_input] at h ⊢
    have hidle := program.run_idle h
    have hnil : (program.run []).rest = [] := List.suffix_nil.1 (program.run_suffix [])
    refine ⟨(program.run []).rest, ?_⟩
    rw [handOver_withInput, hidle]
    exact congrArg (fun rest =>
      (program.run [], (handOver ends isLast (program.run []) streams).withInput rest)) hnil
  · obtain ⟨run, hrun⟩ := runProgram_elsewhere ends isLast program piped hs
    refine ⟨run.rest, ?_⟩
    simp only [hrun, handOver_withInput]

theorem complete_running : complete ends piped (.running program source :: stages) streams =
    let (run, later) := runProgram ends stages.isEmpty program source piped streams
    let (job, last) := complete ends (run.written .output) stages later
    (⟨.running run.child :: job.stages⟩, last) := rfl

theorem complete_suffix : (complete ends piped stages streams).2.input <:+ streams.input := by
  induction stages generalizing piped streams with
  | nil => exact List.suffix_rfl
  | cons stage stages ih =>
    cases stage with
    | finished status left => exact ih streams left
    | running program source =>
      exact (ih _ _).trans (runProgram_suffix ends streams stages.isEmpty program source piped)

/-- Stages that take nothing from the endpoint do the same when it is empty. -/
theorem complete_idle {stages : List Ready}
    (h : (complete ends piped stages streams).2.input = streams.input) :
    complete ends piped stages (streams.withInput []) =
      ((complete ends piped stages streams).1,
        (complete ends piped stages streams).2.withInput []) := by
  induction stages generalizing piped streams with
  | nil => rfl
  | cons stage stages ih =>
    cases stage with
    | finished status left =>
      have hrest := ih streams left h
      simp only [complete, hrest]
    | running program source =>
      -- The stages together take nothing, so neither the first of them nor the others do.
      have hsuffix := runProgram_suffix ends streams stages.isEmpty program source piped
      have hidle := runProgram_idle ends streams stages.isEmpty program source piped
      simp only [complete_running] at h ⊢
      generalize runProgram ends stages.isEmpty program source piped streams = first at *
      obtain ⟨run, later⟩ := first
      have hstep := hsuffix.eq_of_length_le (h ▸ complete_suffix ends later _ stages).length_le
      obtain ⟨rest, hrun⟩ := hidle hstep
      have hrest := ih later (run.written .output) (h.trans hstep.symm)
      have hwritten : Run.written { run with rest } .output = run.written .output := rfl
      simp only [hrun, hwritten, hrest]

end Stages

section Pipelines

/-- Starting a pipeline and running its builtins does not depend on the endpoint. -/
theorem job_prepared (p : Pipeline) : ∃ (ready : List Ready) (later : Streams),
    later.input = streams.input ∧ ∀ input,
      job host ends p shell (streams.withInput input) =
        complete ends [] ready (later.withInput input) := by
  rcases hl : launchStages host ends shell.workDir true p streams with ⟨stages, launched⟩
  rcases hb : runBuiltins host ends shell (heard ends) stages launched with ⟨ready, later⟩
  have hlaunch := launchStages_input host ends streams shell.workDir true p
  have hbuild := runBuiltins_input host ends shell launched (heard ends) stages
  rw [hl] at hlaunch
  rw [hb] at hbuild
  refine ⟨ready, later, hbuild.trans hlaunch, ?_⟩
  intro input
  simp only [job, launchStages_withInput, hl, runBuiltins_withInput, hb]

theorem job_suffix (p : Pipeline) : (job host ends p shell streams).2.input <:+ streams.input := by
  obtain ⟨ready, later, hlater, hjob⟩ := job_prepared host ends shell streams p
  have hself := hjob streams.input
  rw [withInput_self, ← hlater, withInput_self] at hself
  rw [hself, ← hlater]
  exact complete_suffix ends later [] ready

theorem job_idle {p : Pipeline} (h : (job host ends p shell streams).2.input = streams.input) :
    job host ends p shell (streams.withInput []) =
      ((job host ends p shell streams).1, (job host ends p shell streams).2.withInput []) := by
  obtain ⟨ready, later, hlater, hjob⟩ := job_prepared host ends shell streams p
  have hself := hjob streams.input
  rw [withInput_self, ← hlater, withInput_self] at hself
  rw [hself] at h ⊢
  rw [hjob]
  exact complete_idle ends later [] (h.trans hlater.symm)

theorem runLone_withInput (b : Builtin) (c : Command) :
    runLone host ends b c shell (streams.withInput input) =
      { runLone host ends b c shell streams with
        streams := (runLone host ends b c shell streams).streams.withInput input } := by
  simp only [runLone, writeErrors_withInput, writeOutput_withInput, getD_withInput]
  split
  · cases streams.writeErrors ends _ with
    | none => rfl
    | some written => rfl
  · rfl

theorem runLone_input (b : Builtin) (c : Command) :
    (runLone host ends b c shell streams).streams.input = streams.input := by
  have h := runLone_withInput host ends shell streams.input streams b c
  exact input_of_withInput (congrArg Execution.streams h)

theorem run_lone {c : Command} {b : Builtin} (h : Builtin.named c.name = some b) :
    run host ends [c] shell streams = runLone host ends b c shell streams := by
  simp only [run, h]

/-- Only a builtin that is the whole pipeline is not run in stages. -/
theorem run_cases (p : Pipeline) : p = [] ∨
    (∃ c b, p = [c] ∧ Builtin.named c.name = some b) ∨
    ∀ streams, run host ends p shell streams = runStages host ends p shell streams := by
  match p with
  | [] => exact Or.inl rfl
  | [c] =>
    cases hb : Builtin.named c.name with
    | none => exact Or.inr (Or.inr fun streams => by simp only [run, hb])
    | some b => exact Or.inr (Or.inl ⟨c, b, rfl, hb⟩)
  | c :: d :: cs => exact Or.inr (Or.inr fun streams => rfl)

/-- A pipeline leaves the end of what the endpoint holds. -/
theorem run_suffix (p : Pipeline) :
    (run host ends p shell streams).streams.input <:+ streams.input := by
  rcases run_cases host ends shell p with rfl | ⟨c, b, rfl, hb⟩ | hstages
  · exact List.suffix_rfl
  · simp only [run_lone host ends shell streams hb, runLone_input, List.suffix_rfl]
  · rw [hstages]
    exact job_suffix host ends shell streams p

/-- A pipeline that takes nothing from the endpoint does the same when the endpoint is empty. -/
theorem run_idle {p : Pipeline}
    (h : (run host ends p shell streams).streams.input = streams.input) :
    run host ends p shell (streams.withInput []) =
      { run host ends p shell streams with
        streams := (run host ends p shell streams).streams.withInput [] } := by
  rcases run_cases host ends shell p with rfl | ⟨c, b, rfl, hb⟩ | hstages
  · rfl
  · rw [run_lone host ends shell _ hb, run_lone host ends shell _ hb]
    exact runLone_withInput host ends shell [] streams b c
  · simp only [hstages] at h ⊢
    simp only [runStages, job_idle host ends shell streams h]

end Pipelines

end Execution
end PipeShell
