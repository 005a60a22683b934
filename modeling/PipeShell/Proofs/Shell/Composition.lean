import PipeShell.Proofs.Shell.StageRuns

/-! A pipeline in two parts. The second part does behind the pipe what it does by itself on the
bytes that the first part writes by itself. -/
namespace PipeShell

namespace Execution

variable (host : Host) {ends : Endpoints} (shell : Shell) (works isFirst : Bool) (given : Bytes)

/-- What the last of the runs writes to its output. -/
def lastOutput (runs : List Run) : Bytes := (runs.getLast?.map (·.written .output)).getD []

/-- Stages behind a pipeline are run on what its last stage has written. -/
theorem stageRuns_append {p q : Pipeline} (hp : p ≠ []) (hq : q ≠ []) :
    stageRuns host shell works isFirst given (p ++ q) =
      stageRuns host shell true isFirst given p ++
        stageRuns host shell works false
          (lastOutput (stageRuns host shell true isFirst given p)) q := by
  obtain ⟨c, cs, rfl⟩ := List.exists_cons_of_ne_nil hp
  clear hp
  induction cs generalizing c isFirst given with
  | nil =>
    obtain ⟨d, ds, rfl⟩ := List.exists_cons_of_ne_nil hq
    rfl
  | cons c' cs ih =>
    rw [List.cons_append, stageRuns, stageRuns, ih _ _ c', List.cons_append]
    rfl

/-- A stage that has no input file does the same on the endpoint as behind a pipe. -/
theorem stageRun_first {c : Command} (h : c.input = none) :
    stageRun host shell works true c given = stageRun host shell works false c given := by
  simp only [stageRun]
  cases hb : Builtin.named c.name with
  | some b => rfl
  | none =>
    have hendpoint : openInput host shell.workDir true c = .ok .endpoint := by
      simp [openInput, h]
    have hpipe : openInput host shell.workDir false c = .ok .pipe := rfl
    simp only [launch, hendpoint, hpipe]
    cases host.lookup c.name shell.workDir with
    | none => rfl
    | some path =>
      simp only [bind, Except.bind]
      cases host.start path c.arguments shell.workDir with
      | error e => rfl
      | ok program => rfl

theorem stageRuns_first {p : Pipeline} (h : ∀ c ∈ p.head?, c.input = none) :
    stageRuns host shell works true given p = stageRuns host shell works false given p := by
  cases p with
  | nil => rfl
  | cons c cs =>
    have hc : c.input = none := h c rfl
    simp only [stageRuns, stageRun_first host shell _ given hc]

/-- An output endpoint that works and is shared with no errors gets the output alone. -/
theorem arrivingOutput_apart (hworks : ends.outputWorks = true) (hapart : ends.errorsTo ≠ .output)
    (writes : Writes) :
    arrivingOutput ends writes = (writes.filter (·.1 == .output)).flatMap (·.2) := by
  induction writes with
  | nil => rfl
  | cons w writes ih =>
    obtain ⟨channel, bytes⟩ := w
    have hcons : arrivingOutput ends ((channel, bytes) :: writes) =
        arrivingOutput ends [(channel, bytes)] ++ arrivingOutput ends writes :=
      arrivingOutput_append ends [(channel, bytes)] writes
    rw [hcons, ih]
    cases channel <;> simp [arrivingOutput, hworks, hapart]

theorem arrivingOutput_lastWrites (hworks : ends.outputWorks = true)
    (hapart : ends.errorsTo ≠ .output) (runs : List Run) :
    arrivingOutput ends (lastWrites runs) = lastOutput runs := by
  rw [arrivingOutput_apart hworks hapart, lastWrites, lastOutput]
  cases runs.getLast? <;> rfl

theorem stageRuns_ne_nil {p : Pipeline} (h : p ≠ []) :
    stageRuns host shell works isFirst given p ≠ [] := by
  obtain ⟨c, cs, rfl⟩ := List.exists_cons_of_ne_nil h
  exact List.cons_ne_nil _ _

theorem lastWrites_append {first second : List Run} (h : second ≠ []) :
    lastWrites (first ++ second) = lastWrites second := by
  simp only [lastWrites, List.getLast?_append_of_ne_nil _ h]

theorem statusesOf_append (first second : List Run) :
    statusesOf (first ++ second) = statusesOf first ++ statusesOf second :=
  List.map_append

/-- A pipeline in two parts writes what its second part writes by itself on what the first part
writes by itself, and reads what the first part reads. `aside` may be `ends` itself: any endpoints
will do that take all output and keep the errors apart. -/
theorem run_append (host : Host) (ends aside : Endpoints) (shell : Shell) (p q : Pipeline)
    (input : Bytes) (hp : p ≠ []) (hq : q ≠ []) (hlp : ¬ Lone p) (hlq : ¬ Lone q)
    (hin : ∀ c ∈ q.head?, c.input = none) (hworks : aside.outputWorks = true)
    (hapart : aside.errorsTo ≠ .output) :
    let first := run host aside p shell { input }
    let second := run host ends q shell { input := first.streams.output }
    let whole := run host ends (p ++ q) shell { input }
    whole.streams.output = second.streams.output ∧
      whole.streams.input = first.streams.input ∧
      ∃ endFirst endSecond, first.result = .ok endFirst ∧ second.result = .ok endSecond ∧
        whole.result = .ok (
          if endFirst = .stopServer ∨ endSecond = .stopServer then .stopServer
          else if endFirst = .exit ∨ endSecond = .exit then .exit
          else endSecond) := by
  intro first second whole
  have hwhole : p ++ q ≠ [] := List.append_ne_nil_of_left_ne_nil hp q
  have hlwhole : ¬ Lone (p ++ q) := by
    rintro ⟨c, b, h, -⟩
    have hlen := congrArg List.length h
    have hlp := List.length_pos_iff.2 hp
    have hlq := List.length_pos_iff.2 hq
    rw [List.length_append, List.length_singleton] at hlen
    omega
  obtain ⟨hresult₁, -, hinput₁, hdel₁⟩ := run_runs host aside shell hp hlp { input }
  rw [hworks] at hresult₁ hinput₁ hdel₁
  have hmiddle : first.streams.output =
      lastOutput (stageRuns host shell true true input p) := by
    rw [hdel₁.output, arrivingOutput_lastWrites hworks hapart]
    rfl
  obtain ⟨hresult₂, -, -, hdel₂⟩ := run_runs host ends shell hq hlq
    { input := first.streams.output }
  obtain ⟨hresult, -, hinput, hdel⟩ := run_runs host ends shell hwhole hlwhole { input }
  have hruns := stageRuns_append host shell ends.outputWorks true input hp hq
  rw [← hmiddle, ← stageRuns_first host shell ends.outputWorks _ hin] at hruns
  have hne := stageRuns_ne_nil host shell ends.outputWorks true first.streams.output hq
  refine ⟨?_, ?_, _, _, hresult₁, hresult₂, ?_⟩
  · have hlast : lastWrites (stageRuns host shell ends.outputWorks true input (p ++ q)) =
        lastWrites (stageRuns host shell ends.outputWorks true first.streams.output q) := by
      rw [hruns, lastWrites_append hne]
    rw [hdel.output, hdel₂.output, hlast]
  · rw [hinput, hinput₁, hruns]
    obtain ⟨c, cs, rfl⟩ := List.exists_cons_of_ne_nil hp
    rfl
  · have hstatuses : statusesOf (stageRuns host shell ends.outputWorks true
        first.streams.output q) ≠ [] := by
      intro h
      exact hne (List.map_eq_nil_iff.1 h)
    rw [hresult, hruns, statusesOf_append, Status.ofStages_append _ hstatuses]

/-- Three programs: one writes two lines and an error, one counts its input and fails, and one
that asks for the end of the session when it has copied its input. -/
def threePrograms : Host :=
  { tree := { entries := [
      (["say"], .program [.output [0x61, 0x0A, 0x62, 0x0A], .errors [0x21]]),
      (["count"], .program [.count, .exit 3]),
      (["quit"], .program [.copy, .exit 99])] } }

theorem run_append_counted :
    let shell : Shell := { workDir := "/", home := "/" }
    let p : Pipeline := [{ name := "/say" }, { name := "/quit" }]
    let q : Pipeline := [{ name := "/none" }, { name := "/count" }]
    (run threePrograms {} p shell {}).streams.output = [0x61, 0x0A, 0x62, 0x0A] ∧
      (run threePrograms {} (p ++ q) shell {}).streams.output = [0x30, 0x0A] ∧
      (run threePrograms {} (p ++ q) shell {}).result = .ok .exit := by
  intro shell p q
  have hl : ∀ p : Pipeline, p.length = 2 → ¬ Lone p := by
    rintro p hp ⟨c, b, rfl, -⟩
    cases hp
  have hfirst : (run threePrograms {} p shell {}).streams.output = [0x61, 0x0A, 0x62, 0x0A] ∧
      (run threePrograms {} p shell {}).result = .ok .exit := by
    decide
  have hsecond : (run threePrograms {} q shell { input := [0x61, 0x0A, 0x62, 0x0A] }).streams.output
        = [0x30, 0x0A] ∧
      (run threePrograms {} q shell { input := [0x61, 0x0A, 0x62, 0x0A] }).result =
        .ok (.exited 3) := by
    decide
  obtain ⟨houtput, -, endFirst, endSecond, hends, hends', hresult⟩ :=
    run_append threePrograms {} {} shell p q [] (List.cons_ne_nil _ _) (List.cons_ne_nil _ _)
      (hl p rfl) (hl q rfl) (by decide) rfl (by decide)
  rw [hfirst.1, hsecond.1] at houtput
  rw [hfirst.1, hsecond.2] at hends'
  obtain rfl : .exit = endFirst := Except.ok.inj (hfirst.2.symm.trans hends)
  obtain rfl : .exited 3 = endSecond := Except.ok.inj hends'
  exact ⟨hfirst.1, houtput, hresult⟩

end Execution
end PipeShell
