import PipeShell.Proofs.Shell.Isolation

/-! Input files that do not open. A program and a builtin that stands alone then do nothing but to
complain. A builtin in front of others never opens its file, so that for it the file makes no
difference. -/
namespace PipeShell

namespace Execution

/-- The complaint of a first command whose input file does not open. A program is looked for before
its file is opened. -/
def complaint (host : Host) (shell : Shell) (c : Command) (file : String) (e : SystemError) :
    Diagnostic :=
  if Builtin.named c.name = none ∧ host.lookup c.name shell.workDir = none then
    ⟨"command not found: " ++ c.name ++ "\n", 127⟩
  else ⟨file ++ ": " ++ e.message ++ "\n", 1⟩

section Complaints

variable {host : Host} {shell : Shell} {c : Command} {file : String} {e : SystemError}

theorem complaint_builtin {b : Builtin} (hb : Builtin.named c.name = some b) :
    complaint host shell c file e = ⟨file ++ ": " ++ e.message ++ "\n", 1⟩ := by
  refine if_neg ?_
  rintro ⟨hnone, -⟩
  rw [hb] at hnone
  cases hnone

theorem diagnosed_complaint (hb : Builtin.named c.name = none) (hc : c.input = some file)
    (ho : host.openFile (shell.resolve file) = .error e) :
    Diagnosed host shell.workDir true c (complaint host shell c file e) := by
  cases hl : host.lookup c.name shell.workDir with
  | none =>
    rw [complaint, if_pos ⟨hb, hl⟩]
    exact .notFound hl
  | some path =>
    have hfound : ¬ (Builtin.named c.name = none ∧ host.lookup c.name shell.workDir = none) := by
      rw [hl]
      rintro ⟨-, hnone⟩
      cases hnone
    rw [complaint, if_neg hfound]
    exact .unopened hl rfl hc ho

/-- A builtin by itself whose file does not open does not run. -/
theorem runLone_unopened (ends : Endpoints) {b : Builtin} (hb : Builtin.named c.name = some b)
    (hc : c.input = some file) (ho : host.openFile (shell.resolve file) = .error e)
    (s : Streams) :
    let line := Utf8.ofString (complaint host shell c file e).line
    runLone host ends b c shell s =
      ⟨if (s.writeErrors ends line).isSome then .ok (.exited 1) else .error (.io .badDescriptor),
        shell, deliver ends [(.errors, line)] s⟩ := by
  intro line
  have hline : line = Utf8.ofString (file ++ ": " ++ e.message ++ "\n") := by
    simp only [line, complaint_builtin hb]
  simp only [runLone, hc, Option.bind_some, ho, hline, deliver, List.foldl_cons, List.foldl_nil]
  cases s.writeErrors ends (Utf8.ofString (file ++ ": " ++ e.message ++ "\n")) with
  | none => rfl
  | some written => rfl

/-- Behind a program that cannot be started the other stages run on nothing. -/
theorem stageRuns_diagnosed {d : Diagnostic} (hb : Builtin.named c.name = none)
    (hd : Diagnosed host shell.workDir true c d) (works : Bool) (given : Bytes) (cs : Pipeline) :
    stageRuns host shell works true given (c :: cs) =
      { rest := given, writes := [(.errors, Utf8.ofString d.line)], child := .ended d.status } ::
        stageRuns host shell works false [] cs := by
  rw [stageRuns, hd.stageRun hb]
  rfl

/-- A builtin that others stand behind never opens its input file. -/
theorem run_builtin_withoutInput (ends : Endpoints) {b : Builtin}
    (hb : Builtin.named c.name = some b) {cs : Pipeline} (hcs : cs ≠ []) (s : Streams) :
    run host ends (c :: cs) shell s = run host ends (c.withoutInput :: cs) shell s := by
  obtain ⟨next, rest, rfl⟩ := List.exists_cons_of_ne_nil hcs
  have hlaunch : launchStage host ends shell.workDir true false c s =
      launchStage host ends shell.workDir true false c.withoutInput s := by
    have hb' : Builtin.named c.withoutInput.name = some b := hb
    simp only [launchStage, hb, hb']
    rfl
  have hjob : job host ends (c :: next :: rest) shell s =
      job host ends (c.withoutInput :: next :: rest) shell s := by
    rw [job, job, launchStages, List.isEmpty_cons, hlaunch, launchStages, List.isEmpty_cons]
  simp only [run, runStages, hjob]

end Complaints

/-- What a pipeline comes to if all that its first command does is to complain. -/
structure OnlyComplains (host : Host) (ends : Endpoints) (shell : Shell) (c : Command)
    (cs : Pipeline) (d : Diagnostic) (s : Streams) (done : Execution) : Prop where
  unchanged : done.shell = shell
  input : done.streams.input = s.input
  alone : cs = [] → Delivered ends [(.errors, Utf8.ofString d.line)] s done.streams ∧
    done.streams.inherited = s.inherited ∧
    done.result =
      if Builtin.named c.name = none ∨
          (s.writeErrors ends (Utf8.ofString d.line)).isSome = true then
        .ok (.exited d.status)
      else .error (.io .badDescriptor)
  /-- The end of the pipeline is that of the later stages, which find their input at an end. Those
  of their builtins that nobody reads may fail. -/
  before : cs ≠ [] →
    let later := stageRuns host shell ends.outputWorks false [] cs
    let statuses := (job host ends (c :: cs) shell s).1.wait.1
    statuses.head? = some d.status ∧
      FailedAt (Unread host shell (c :: cs)) statuses (d.status :: statusesOf later) ∧
      done.result = .ok (Status.ofStages (statusesOf later)) ∧
      Delivered ends (lastWrites later) s done.streams ∧
      ∃ pieces : List Bytes, pieces.Perm (Utf8.ofString d.line :: asides later) ∧
        done.streams.inherited = s.inherited ++ pieces.flatten

theorem onlyComplains_program {host : Host} (ends : Endpoints) {shell : Shell} {c : Command}
    (cs : Pipeline) {d : Diagnostic} (hb : Builtin.named c.name = none)
    (hd : Diagnosed host shell.workDir true c d) (s : Streams) :
    OnlyComplains host ends shell c cs d s (run host ends (c :: cs) shell s) := by
  have hfail : Fails host shell (c :: cs) 0 d := ⟨c, rfl, hb, hd⟩
  obtain ⟨hp, hl⟩ := hfail.staged
  have hruns := stageRuns_diagnosed hb hd ends.outputWorks s.input cs
  obtain ⟨hresult, hshell, hinput, hdel⟩ := run_runs host ends shell hp hl s
  have hstatuses := job_statuses host ends shell hp s
  obtain ⟨pieces, hperm, hinherited⟩ := job_inherited host ends shell (c :: cs) s
  rw [hruns] at hresult hinput hdel hstatuses hperm
  rw [← run_streams host ends shell hl s] at hinherited
  refine ⟨hshell, hinput, ?_, ?_⟩
  · rintro rfl
    refine ⟨hdel, ?_, ?_⟩
    · obtain rfl := List.perm_nil.1 hperm
      exact hinherited.trans (List.append_nil _)
    · rw [if_pos (Or.inl hb), hresult]
      refine congrArg Except.ok ?_
      change Status.ofStages [d.status] = .exited d.status
      rcases hd.status with h | h <;> rw [h] <;> rfl
  · intro hcs later
    have hlater : later ≠ [] := stageRuns_ne_nil host shell ends.outputWorks false [] hcs
    have hnot : statusesOf later ≠ [] := by
      intro h
      exact hlater (List.map_eq_nil_iff.1 h)
    refine ⟨?_, hstatuses, ?_, ?_, pieces, ?_, hinherited⟩
    · rcases hstatuses 0 with hfirst | ⟨hunread, -⟩
      · rw [List.head?_eq_getElem?]
        exact hfirst
      · exact absurd hb (hunread.named_ne_none rfl)
    · have hplain : d.status ≠ 99 ∧ d.status ≠ 200 := by
        rcases hd.status with h | h <;> rw [h] <;> exact ⟨by decide, by decide⟩
      rw [hresult]
      exact congrArg Except.ok (Status.ofStages_cons hplain.1 hplain.2 hnot)
    · rwa [← List.singleton_append, lastWrites_append hlater] at hdel
    · rw [asides_cons _ hlater] at hperm
      exact List.append_nil (Utf8.ofString d.line) ▸ hperm

theorem onlyComplains_lone {host : Host} (ends : Endpoints) {shell : Shell} {c : Command}
    {b : Builtin} {file : String} {e : SystemError} (hb : Builtin.named c.name = some b)
    (hc : c.input = some file) (ho : host.openFile (shell.resolve file) = .error e) (s : Streams) :
    OnlyComplains host ends shell c [] (complaint host shell c file e) s
      (run host ends [c] shell s) := by
  rw [run_lone host ends shell s hb, runLone_unopened ends hb hc ho]
  let line := Utf8.ofString (complaint host shell c file e).line
  have hinput : (deliver ends [(.errors, line)] s).input = s.input :=
    handOver_input ends s true { rest := [], writes := [(.errors, line)] }
  refine ⟨rfl, hinput, ?_, fun h => absurd rfl h⟩
  intro _
  refine ⟨.one ends _ s, deliver_inherited ends _ s, ?_⟩
  have hstatus : (complaint host shell c file e).status = 1 := by
    rw [complaint_builtin hb]
  simp only [hb, hstatus, reduceCtorEq, false_or]

/-- A first command whose input file does not open only complains, be it a program or alone, so
that it never ends the session nor stops the server. A builtin that others stand behind is the
exception: it does what it does without a file. -/
theorem run_unopened (host : Host) (ends : Endpoints) (shell : Shell) (c : Command)
    (cs : Pipeline) (s : Streams) {file : String} {e : SystemError} (hc : c.input = some file)
    (ho : host.openFile (shell.resolve file) = .error e) :
    (Builtin.named c.name = none ∨ cs = [] →
      OnlyComplains host ends shell c cs (complaint host shell c file e) s
        (run host ends (c :: cs) shell s)) ∧
    ∀ b, Builtin.named c.name = some b → cs ≠ [] →
      run host ends (c :: cs) shell s = run host ends (c.withoutInput :: cs) shell s := by
  refine ⟨?_, fun b hb hcs => run_builtin_withoutInput ends hb hcs s⟩
  intro hhead
  cases hb : Builtin.named c.name with
  | none =>
    exact onlyComplains_program ends cs hb (diagnosed_complaint hb hc ho) s
  | some b =>
    rcases hhead with hnone | rfl
    · rw [hb] at hnone
      cases hnone
    · exact onlyComplains_lone ends hb hc ho s

/-- A program that would ask for the end of the session, in front of one that counts. -/
theorem run_unopened_asking :
    threePrograms.openFile "/nowhere" = .error .notFound ∧
      (run threePrograms {} [{ name := "/quit", input := some "nowhere" }, { name := "/count" }]
        { workDir := "/", home := "/" } {}).result = .ok (.exited 3) ∧
      (run threePrograms {} [{ name := "exit", input := some "nowhere" }]
        { workDir := "/", home := "/" } {}).result = .ok (.exited 1) := by
  have ho : threePrograms.openFile
      (Shell.resolve { workDir := "/", home := "/" } "nowhere") = .error .notFound := by decide
  have hlater : statusesOf (stageRuns threePrograms { workDir := "/", home := "/" } true false []
      [{ name := "/count" }]) = [3] := by decide
  refine ⟨ho, ?_, ?_⟩
  · have hquit := (run_unopened threePrograms {} { workDir := "/", home := "/" }
      { name := "/quit", input := some "nowhere" } [{ name := "/count" }] {} rfl ho).1
      (Or.inl (by decide))
    obtain ⟨-, -, hresult, -, -⟩ := hquit.before (List.cons_ne_nil _ _)
    rw [hresult, hlater]
    rfl
  · have hexit := (run_unopened threePrograms {} { workDir := "/", home := "/" }
      { name := "exit", input := some "nowhere" } [] {} rfl ho).1 (Or.inr rfl)
    obtain ⟨-, -, hresult⟩ := hexit.alone rfl
    rw [hresult]
    decide

/-- A builtin that others stand behind ends the session though its file does not open. -/
theorem exit_unopened :
    threePrograms.openFile "/nowhere" = .error .notFound ∧
      (job threePrograms {} [{ name := "exit", input := some "nowhere" }, { name := "/count" }]
        { workDir := "/", home := "/" } {}).1.wait.1 = [99, 3] ∧
      (run threePrograms {} [{ name := "exit", input := some "nowhere" }, { name := "/count" }]
        { workDir := "/", home := "/" } {}).result = .ok .exit := by
  decide

end Execution
end PipeShell
