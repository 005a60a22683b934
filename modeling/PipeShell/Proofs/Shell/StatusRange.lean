import PipeShell.Proofs.Shell.Statuses

/-! The numbers that an end may be told by. Every stage ends with a status that fits into a byte,
whether it was a program or not, and a pipeline that has exited shows none that asks for an end. -/
namespace PipeShell

/-- The statuses that fit into a byte. -/
def InByte (status : Int) : Prop := 0 ≤ status ∧ status ≤ 255

instance (status : Int) : Decidable (InByte status) :=
  inferInstanceAs (Decidable (0 ≤ status ∧ status ≤ 255))

/-- The statuses that a pipeline may exit with: bytes that ask for the end of nothing. -/
structure Reported (status : Int) : Prop where
  inByte : InByte status
  ne_exit : status ≠ 99
  ne_stopServer : status ≠ 200

/-- Success and failure of a builtin. -/
theorem reported_of_flag {status : Int} (h : status = 0 ∨ status = 1) : Reported status := by
  rcases h with rfl | rfl
  · exact ⟨by decide, by decide, by decide⟩
  · exact ⟨by decide, by decide, by decide⟩

theorem inByte_launchFailure : InByte launchFailure := by decide

theorem WaitStatus.inByte_code {report : WaitStatus} {status : Int} (h : report.Possible)
    (hc : report.code? = some status) : InByte status := by
  cases report with
  | exited code =>
    obtain rfl : code = status := Option.some.inj hc
    exact h
  | signaled signal =>
    obtain rfl : 128 + (signal : Int) = status := Option.some.inj hc
    obtain ⟨hlow, hhigh⟩ : 1 ≤ signal ∧ signal ≤ 64 := h
    constructor <;> omega
  | stopped signal => cases hc
  | continued => cases hc
  | stillAlive => cases hc

/-- A child ends with a byte if its reports are such as an operating system makes. -/
theorem Child.inByte_wait {c : Child} (h : ∀ report ∈ c.reports, report.Possible) :
    InByte c.wait := by
  rw [wait]
  cases hfound : c.reports.findSome? (·.code?) with
  | none => exact inByte_launchFailure
  | some status =>
    obtain ⟨report, hmem, hcode⟩ := List.exists_of_findSome?_eq_some hfound
    exact WaitStatus.inByte_code (h report hmem) hcode

namespace Invocation

theorem possible_signaled {signal : Nat} (h : namesSignal signal = true) :
    ∀ report ∈ (⟨[.signaled signal]⟩ : Child).reports, report.Possible := by
  intro report hmem
  obtain rfl := List.mem_singleton.1 hmem
  obtain ⟨hlow, hhigh⟩ : 1 ≤ signal ∧ signal ≤ 31 := by simpa [namesSignal] using h
  exact ⟨hlow, Nat.le_trans hhigh (by decide)⟩

/-- Whatever a program does, its end is reported as an operating system may report it. -/
theorem possible_perform (arguments : List String) (directory : String) (guarded : List Nat)
    (actions : List Action) (input : Bytes) :
    ∀ report ∈ (perform arguments directory guarded actions input).child.reports,
      report.Possible := by
  have hexited : ∀ code : Int, 0 ≤ code → code ≤ 255 →
      ∀ report ∈ (⟨[.exited code]⟩ : Child).reports, report.Possible := by
    intro code hlow hhigh report hmem
    obtain rfl := List.mem_singleton.1 hmem
    exact ⟨hlow, hhigh⟩
  induction actions generalizing guarded input with
  | nil => exact hexited 0 (by decide) (by decide)
  | cons action actions ih =>
    cases action with
    | copy => exact ih guarded []
    | upper => exact ih guarded []
    | count => exact ih guarded []
    | drain => exact ih guarded []
    | take n => exact ih guarded (input.drop n)
    | output bytes => exact ih guarded input
    | errors bytes => exact ih guarded input
    | fill n => exact ih guarded input
    | arguments => exact ih guarded input
    | directory root => exact ih guarded input
    | exit code => exact hexited (code % 256) (by omega) (by omega)
    | kill signal =>
      cases hnamed : namesSignal signal with
      | false =>
        simp only [perform, hnamed, Bool.not_false, if_true]
        exact hexited signalRefused (by decide) (by decide)
      | true =>
        simp only [perform, hnamed, Bool.not_true, Bool.false_eq_true, if_false]
        split
        · exact ih guarded input
        · split
          · exact ih (guarded.erase signal) input
          · exact possible_signaled hnamed
    | become behaviour => exact behaviour.possible arguments directory input

end Invocation

theorem Builtin.inByte_status (host : Host) (b : Builtin) (arguments : List String) (scope : Scope)
    (works : Bool) (shell : Shell) :
    InByte (b.run host arguments scope works shell).outcome.status := by
  cases ho : (b.run host arguments scope works shell).outcome with
  | executed code =>
    exact (reported_of_flag (run_executed ho)).inByte
  | exit => decide
  | stopServer => decide

namespace Execution

variable {host : Host} {ends : Endpoints} {shell : Shell}

theorem inByte_launch {workDir : String} {isFirst : Bool} {c : Command} {d : Diagnostic}
    (h : launch host workDir isFirst c = .error d) : InByte d.status := by
  rcases (launch_error_iff.1 h).status with hstatus | hstatus <;> rw [hstatus] <;> decide

/-- Every stage ends with a byte: a program, a builtin, and what could not be started. -/
theorem inByte_stageRun (works isFirst : Bool) (c : Command) (given : Bytes) :
    InByte (stageRun host shell works isFirst c given).child.wait := by
  rcases stage_cases host {} shell isFirst c with
    ⟨b, -, -, hrun⟩ | ⟨d, hfailed, -, hrun⟩ | ⟨program, input, -, -, hrun⟩
  · rw [hrun]
    exact Builtin.inByte_status host b c.arguments .pipeline works shell
  · rw [hrun]
    exact inByte_launch hfailed
  · rw [hrun]
    apply Child.inByte_wait
    cases input with
    | endpoint => exact Invocation.possible_perform _ _ _ _ given
    | pipe => exact Invocation.possible_perform _ _ _ _ given
    | file content => exact Invocation.possible_perform _ _ _ _ content

theorem inByte_statusesOf (works isFirst : Bool) (given : Bytes) (p : Pipeline) :
    ∀ status ∈ statusesOf (stageRuns host shell works isFirst given p), InByte status := by
  induction p generalizing isFirst given with
  | nil =>
    intro status hmem
    cases hmem
  | cons c cs ih =>
    intro status hmem
    rcases List.mem_cons.1 hmem with rfl | hmem
    · exact inByte_stageRun (!cs.isEmpty || works) isFirst c given
    · exact ih false _ status hmem

theorem inByte_ofStages {statuses : List Int} {code : Int}
    (h : ∀ status ∈ statuses, InByte status) (hcode : Status.ofStages statuses = .exited code) :
    InByte code := by
  rw [Status.ofStages_eq] at hcode
  split at hcode
  · cases hcode
  · split at hcode
    · cases hcode
    · obtain rfl := Status.exited.inj hcode
      cases hlast : statuses.getLast? with
      | none => exact inByte_launchFailure
      | some last => exact h last (List.mem_of_getLast? hlast)

/-- What a pipeline exits with, a lone builtin or not, is a status that may be reported. -/
theorem reported_of_exited {p : Pipeline} {s : Streams} {code : Int}
    (h : (run host ends p shell s).result = .ok (.exited code)) : Reported code := by
  by_cases hp : p = []
  · subst hp
    cases h
  · by_cases hl : Lone p
    · obtain ⟨c, b, rfl, hb⟩ := hl
      rw [run_lone host ends shell s hb] at h
      exact reported_of_flag (lone_status h)
    · have hcode := Except.ok.inj ((run_runs host ends shell hp hl s).1.symm.trans h)
      obtain ⟨hexit, hstop⟩ := Status.ofStages_exited hcode
      exact ⟨inByte_ofStages (inByte_statusesOf _ true s.input p) hcode, hexit, hstop⟩

end Execution
end PipeShell
