import PipeShell.Proofs.Shell.StageRuns

/-! The statuses of a job and what they come to. Builtins are run last, yet each result goes to the
entry that was kept for it, so that every stage has one entry at its own place. -/
namespace PipeShell

theorem Builtin.run_executed {host : Host} {b : Builtin} {arguments : List String} {scope : Scope}
    {works : Bool} {shell : Shell} {code : Int}
    (h : (b.run host arguments scope works shell).outcome = .executed code) :
    code = 0 ∨ code = 1 := by
  cases b with
  | exit => cases works <;> cases h
  | stopServer => cases works <;> cases h
  | cd =>
    have hcd : (changeDirectory host arguments scope shell).outcome = .executed code := by
      cases works <;> exact h
    simp only [changeDirectory] at hcd
    split at hcd
    · exact Or.inl (Outcome.executed.inj hcd).symm
    · exact Or.inr (Outcome.executed.inj hcd).symm
  | dragon =>
    cases works with
    | true => exact Or.inl (Outcome.executed.inj h).symm
    | false => exact Or.inr (Outcome.executed.inj h).symm
  | rc =>
    cases works with
    | true => exact Or.inl (Outcome.executed.inj h).symm
    | false => exact Or.inr (Outcome.executed.inj h).symm

namespace Execution

/-- The entry of a stage when the programs have been started. A builtin has a placeholder. -/
def Stage.entered : Stage → Ready
  | .failed status => .finished status []
  | .running program input => .running program input
  | .deferred _ _ => .finished launchFailure []

/-- The builtins that are put off, with the places of their entries and whether their output
works. -/
def putOff (ends : Endpoints) : Nat → List Stage → List (Nat × Bool × Builtin × List String)
  | _, [] => []
  | i, .deferred b arguments :: stages =>
    (i, heard ends stages, b, arguments) :: putOff ends (i + 1) stages
  | i, _ :: stages => putOff ends (i + 1) stages

/-- Runs the builtins that were put off and writes every result over its entry. There is nothing
if an entry is out of range. -/
def writeBack (host : Host) (ends : Endpoints) (shell : Shell) :
    List (Nat × Bool × Builtin × List String) → List Ready → Streams →
      Option (List Ready × Streams)
  | [], entries, streams => some (entries, streams)
  | (i, works, b, arguments) :: rest, entries, streams =>
    if i < entries.length then
      let (done, streams) :=
        runDeferred host ends shell (i + 1 == entries.length) works b arguments streams
      writeBack host ends shell rest (entries.set i done) streams
    else none

/-- Whether the output of a command works before the next one. A program that cannot be started has
closed its end of the pipe. -/
def heardBy (host : Host) (shell : Shell) (works : Bool) : (next : Option Command) → Bool
  | none => works
  | some c =>
    match Builtin.named c.name, launch host shell.workDir false c with
    | none, .error _ => false
    | _, _ => true

variable {host : Host} {ends : Endpoints} {shell : Shell}

/-- The entries before a place have their results already; those from there on are written. -/
theorem writeBack_entered (done : List Ready) (stages : List Stage) (s : Streams) :
    writeBack host ends shell (putOff ends done.length stages)
        (done ++ stages.map Stage.entered) s =
      some (done ++ (runBuiltins host ends shell (heard ends) stages s).1,
        (runBuiltins host ends shell (heard ends) stages s).2) := by
  induction stages generalizing done s with
  | nil => rfl
  | cons stage stages ih =>
    have hnext : ∀ made later, writeBack host ends shell (putOff ends (done.length + 1) stages)
        (done ++ made :: stages.map Stage.entered) later =
          some (done ++ made :: (runBuiltins host ends shell (heard ends) stages later).1,
            (runBuiltins host ends shell (heard ends) stages later).2) := by
      intro made later
      have h := ih (done ++ [made]) later
      simpa only [List.length_append, List.length_singleton, List.append_assoc,
        List.singleton_append] using h
    cases stage with
    | failed status => exact hnext _ s
    | running program input => exact hnext _ s
    | deferred b arguments =>
      have hrange : done.length < (done ++ .finished launchFailure [] ::
          stages.map Stage.entered).length := by
        simp
      have hlast : (done.length + 1 == (done ++ .finished launchFailure [] ::
          stages.map Stage.entered).length) = stages.isEmpty := by
        cases stages <;> simp
      rw [List.map_cons, Stage.entered, putOff, writeBack, if_pos hrange, hlast]
      rcases hrun : runDeferred host ends shell stages.isEmpty (heard ends stages) b arguments s
        with ⟨made, later⟩
      have hset : (done ++ .finished launchFailure [] :: stages.map Stage.entered).set done.length
          made = done ++ made :: stages.map Stage.entered := by
        simp
      simp only [hset, runBuiltins, hrun]
      exact hnext made later

theorem heardBy_of_fails {p : Pipeline} {i : Nat} {d : Diagnostic} (works : Bool)
    (h : Fails host shell p (i + 1) d) : heardBy host shell works p[i + 1]? = false := by
  obtain ⟨c, hc, hb, hd⟩ := h
  have hl : launch host shell.workDir false c = .error d := launch_error_iff.2 hd
  simp only [hc, heardBy, hb, hl]

theorem heardBy_of_started {p : Pipeline} {i : Nat} (works : Bool)
    (h : ¬ ∃ d, Fails host shell p (i + 1) d) :
    heardBy host shell works p[i + 1]? = (decide (i + 1 < p.length) || works) := by
  cases hc : p[i + 1]? with
  | none =>
    have hlast : ¬ i + 1 < p.length := Nat.not_lt.2 (List.getElem?_eq_none_iff.1 hc)
    simp only [heardBy, decide_eq_false hlast, Bool.false_or]
  | some c =>
    have hlt : i + 1 < p.length := (List.getElem?_eq_some_iff.1 hc).1
    simp only [heardBy, decide_eq_true hlt, Bool.true_or]
    split
    · case h_1 d hb hl => exact absurd ⟨d, c, hc, hb, launch_error_iff.1 hl⟩ h
    · rfl

/-- What a program comes to does not depend on who reads it. -/
theorem stageRun_program {c : Command} (hb : Builtin.named c.name = none)
    (works works' isFirst : Bool) (given : Bytes) :
    stageRun host shell works isFirst c given = stageRun host shell works' isFirst c given := by
  simp only [stageRun, hb]

variable (host ends shell) in
/-- Every stage has the status of its command at its own place. -/
theorem getElem?_statuses {p : Pipeline} (s : Streams) {i : Nat} {c : Command}
    (hi : p[i]? = some c) :
    (job host ends p shell s).1.statuses[i]? =
      some (stageRun host shell (heardBy host shell ends.outputWorks p[i + 1]?) (i == 0) c
        (givenAt (stageRuns host shell ends.outputWorks true s.input p) s.input i)).child.wait := by
  have hp : p ≠ [] := by
    rintro rfl
    cases hi
  obtain ⟨hstatuses, -, -⟩ := jobReached_runs host ends shell hp s
  obtain ⟨-, -, hkept, hunread⟩ := job_heard host ends shell p s
  have hideal : (jobReached host ends shell p s).1.statuses[i]? = some (stageRun host shell
      (decide (i + 1 < p.length) || ends.outputWorks) (i == 0) c
        (givenAt (stageRuns host shell ends.outputWorks true s.input p) s.input i)).child.wait := by
    rw [hstatuses, statusesOf, List.getElem?_map,
      getElem?_stageRuns host shell ends.outputWorks true s.input hi]
    rfl
  have hread : ¬ Unread host shell p i → (job host ends p shell s).1.statuses[i]? =
      (jobReached host ends shell p s).1.statuses[i]? := by
    intro h
    simp only [Job.statuses, List.getElem?_map, hkept i h]
  cases hb : Builtin.named c.name with
  | none =>
    rw [hread fun h => h.named_ne_none hi hb, hideal, stageRun_program hb]
  | some b =>
    by_cases hfail : ∃ d, Fails host shell p (i + 1) d
    · obtain ⟨d, hd⟩ := hfail
      rw [heardBy_of_fails ends.outputWorks hd, Job.statuses, List.getElem?_map,
        hunread i c b d hi hb hd]
      simp only [stageRun, hb, Option.map_some, Child.wait_ended, Job.Stage.wait]
    · rw [hread fun h => hfail h.2, hideal, heardBy_of_started ends.outputWorks hfail]

/-- Readers that take nothing may be gone when the builtins run. Then builtins may fail that fail
nowhere else. -/
theorem failedAt_losing {lost : Nat → Bool} {p : Pipeline} {s : Streams}
    (h : Unheard lost (launchStages host ends shell.workDir true p s).1) :
    FailedAt (fun i => lost i = true) (jobLosing host ends shell lost p s).1.statuses
      (job host ends p shell s).1.statuses := by
  obtain ⟨-, -, hentries⟩ := jobLosing_eq host ends shell h
  intro i
  cases hlost : lostStatus host shell lost (launchStages host ends shell.workDir true p s).1 i with
  | none =>
    refine Or.inl ?_
    simp only [Job.statuses, List.getElem?_map, hentries i, hlost, Option.map_none,
      Option.none_or]
  | some status =>
    obtain ⟨hi, c, b, hc, hb, hunread⟩ := lostStatus_eq_some host ends shell hlost
    have hother : (jobLosing host ends shell lost p s).1.statuses[i]? = some status := by
      rw [Job.statuses, List.getElem?_map, hentries i, hlost]
      rfl
    have hdone := getElem?_statuses host ends shell s hc
    simp only [stageRun, hb, Child.wait_ended] at hdone
    rw [hother, hdone]
    cases heardBy host shell ends.outputWorks p[i + 1]? with
    | false => exact Or.inl (congrArg some hunread.symm)
    | true =>
      rcases builtin_unread host shell b c.arguments with hsame | ⟨hone, hzero⟩
      · exact Or.inl (congrArg some (hunread.symm.trans hsame))
      · exact Or.inr ⟨hi, congrArg some (hunread.symm.trans hone), congrArg some hzero⟩

/-- A builtin that has one status only has it among those of the stages. -/
theorem mem_statuses_or {p : Pipeline} (s : Streams) {b : Builtin} {status : Int}
    (hs : ∀ arguments works,
      (b.run host arguments .pipeline works shell).outcome.status = status) :
    (status ∈ (job host ends p shell s).1.statuses ∨
        ∃ c ∈ p, Builtin.named c.name = some b) ↔
      status ∈ (job host ends p shell s).1.statuses := by
  refine or_iff_left_of_imp ?_
  rintro ⟨c, hc, hb⟩
  obtain ⟨i, hi⟩ := List.mem_iff_getElem?.1 hc
  refine List.mem_of_getElem? ((getElem?_statuses host ends shell s hi).trans ?_)
  simp only [stageRun, hb, Child.wait_ended, hs]

theorem lone_status {c : Command} {b : Builtin} {s : Streams} {code : Int}
    (h : (runLone host ends b c shell s).result = .ok (.exited code)) : code = 0 ∨ code = 1 := by
  simp only [runLone] at h
  split at h
  · split at h
    · exact Or.inr (Status.exited.inj (Except.ok.inj h)).symm
    · cases h
  · have hstatus := Except.ok.inj h
    split at hstatus
    · case h_1 done ho =>
      obtain rfl := Status.exited.inj hstatus
      exact Builtin.run_executed ho
    · cases hstatus
    · cases hstatus

/-- Running a pipeline that is no lone builtin gives every stage one status at its own place, that
of the command there on what the stage before it has written, and the statuses decide how the
pipeline ends. Programs that end without a read may be gone when the builtins run, which matters to
nothing but the statuses of builtins that write to them. No pipeline ends as exited with a status
that has another meaning. -/
theorem run_verdict (host : Host) (ends : Endpoints) (shell : Shell) (p : Pipeline)
    (s : Streams) :
    (p ≠ [] → ¬ Lone p →
      let started := launchStages host ends shell.workDir true p s
      let runs := stageRuns host shell ends.outputWorks true s.input p
      let done := (job host ends p shell s).1
      let statuses := done.wait.1
      writeBack host ends shell (putOff ends 0 started.1) (started.1.map Stage.entered) started.2 =
          some (runBuiltins host ends shell (heard ends) started.1 started.2) ∧
        done.stages.length = p.length ∧
        (∀ i c, p[i]? = some c → statuses[i]? =
          some (stageRun host shell (heardBy host shell ends.outputWorks p[i + 1]?) (i == 0) c
            (givenAt runs s.input i)).child.wait) ∧
        (∀ lost, Unheard lost started.1 →
          let others := (jobLosing host ends shell lost p s).1.wait.1
          FailedAt (fun i => lost i = true) others statuses ∧
            Status.ofStages others = Status.ofStages statuses) ∧
        ∃ last, statuses.getLast? = some last ∧ (run host ends p shell s).result = .ok (
          if 200 ∈ statuses ∨ ∃ c ∈ p, Builtin.named c.name = some .stopServer then .stopServer
          else if 99 ∈ statuses ∨ ∃ c ∈ p, Builtin.named c.name = some .exit then .exit
          else .exited last)) ∧
    ∀ code, (run host ends p shell s).result = .ok (.exited code) → code ≠ 99 ∧ code ≠ 200 := by
  constructor
  · intro hp hl started runs done statuses
    have hlen : done.stages.length = p.length := by
      have hsame := (job_statuses host ends shell hp s).length_eq
      rwa [Job.statuses, List.length_map, statusesOf, List.length_map, length_stageRuns] at hsame
    refine ⟨writeBack_entered [] started.1 started.2, hlen, fun i c hi =>
      getElem?_statuses host ends shell s hi, fun lost hlost =>
        ⟨failedAt_losing hlost, (jobLosing_eq host ends shell hlost).2.1⟩, ?_⟩
    have hne : statuses ≠ [] := by
      intro hnil
      have hstages : done.stages = [] := List.map_eq_nil_iff.1 hnil
      rw [hstages] at hlen
      exact hp (List.eq_nil_of_length_eq_zero hlen.symm)
    have hstop : (200 ∈ statuses ∨ ∃ c ∈ p, Builtin.named c.name = some .stopServer) ↔
        200 ∈ statuses := mem_statuses_or s fun _ works => by cases works <;> rfl
    have hexit : (99 ∈ statuses ∨ ∃ c ∈ p, Builtin.named c.name = some .exit) ↔
        99 ∈ statuses := mem_statuses_or s fun _ works => by cases works <;> rfl
    refine ⟨statuses.getLast hne, List.getLast?_eq_some_getLast hne, ?_⟩
    have hresult : (run host ends p shell s).result = .ok (Status.ofStages statuses) := by
      rcases run_cases host ends shell p with rfl | hlone | hstages
      · exact absurd rfl hp
      · exact absurd hlone hl
      · rw [hstages]
        rfl
    simp only [hresult, hstop, hexit, Status.ofStages_eq, List.getLast?_eq_some_getLast hne,
      Option.getD_some]
  · intro code h
    rcases run_cases host ends shell p with rfl | ⟨c, b, rfl, hb⟩ | hstages
    · cases h
    · rw [run_lone host ends shell s hb] at h
      rcases lone_status h with rfl | rfl
      · exact ⟨by decide, by decide⟩
      · exact ⟨by decide, by decide⟩
    · rw [hstages] at h
      exact Status.ofStages_exited (Except.ok.inj h)

/-- A program that is there, one that is not, and two builtins, of which the last asks for the end
of the session. -/
def mixed : Pipeline :=
  [{ name := "/seven" }, { name := "rc" }, { name := "/none" }, { name := "exit" }]

def oneProgram : Host := { tree := { entries := [(["seven"], .program [.drain, .exit 7])] } }

theorem run_verdict_mixed :
    mixed ≠ [] ∧ ¬ Lone mixed ∧
      (job oneProgram {} mixed { workDir := "/", home := "/" } {}).1.wait.1 = [7, 1, 127, 99] ∧
      (run oneProgram {} mixed { workDir := "/", home := "/" } {}).result = .ok .exit := by
  have hp : mixed ≠ [] := List.cons_ne_nil _ _
  have hl : ¬ Lone mixed := by
    rintro ⟨c, b, h, -⟩
    cases h
  have hstatuses : (job oneProgram {} mixed { workDir := "/", home := "/" } {}).1.wait.1 =
      [7, 1, 127, 99] := by decide
  obtain ⟨-, -, -, -, last, -, hresult⟩ :=
    (run_verdict oneProgram {} { workDir := "/", home := "/" } mixed {}).1 hp hl
  have hstop : ¬ (200 ∈ ([7, 1, 127, 99] : List Int) ∨
      ∃ c ∈ mixed, Builtin.named c.name = some .stopServer) := by decide
  have hexit : 99 ∈ ([7, 1, 127, 99] : List Int) ∨
      ∃ c ∈ mixed, Builtin.named c.name = some .exit := by decide
  refine ⟨hp, hl, hstatuses, ?_⟩
  rw [hresult, hstatuses, if_neg hstop, if_pos hexit]

end Execution
end PipeShell
