import PipeShell.Proofs.Shell.Folding
import PipeShell.Proofs.Shell.Input
import PipeShell.Proofs.Shell.Launching

/-! Pipes that have lost their readers. A builtin that writes to one of them may fail, yet nothing
of what it writes would have been read: neither the streams nor the end of the pipeline tell of
it. -/
namespace PipeShell
namespace Execution

/-- Whether the output of a stage works as long as every pipe has its reader. -/
def reached (ends : Endpoints) (behind : List Stage) : Bool := !behind.isEmpty || ends.outputWorks

section Passes

variable (host : Host) (ends : Endpoints) (shell : Shell)

/-- The second pass over one stage, whose pipe has its reader. -/
def buildStage (isLast : Bool) (stage : Stage) (streams : Streams) : Ready × Streams :=
  match stage with
  | .failed status => (.finished status [], streams)
  | .running program input => (.running program input, streams)
  | .deferred b arguments =>
    runDeferred host ends shell isLast (!isLast || ends.outputWorks) b arguments streams

/-- The last pass over one stage: its entry in the job, and what it has left in the pipe. -/
def passStage (isLast : Bool) (piped : Bytes) (ready : Ready) (streams : Streams) :
    Job.Stage × Bytes × Streams :=
  match ready with
  | .finished status left => (.done status, left, streams)
  | .running program input =>
    let (run, streams) := runProgram ends isLast program input piped streams
    (.running run.child, run.written .output, streams)

theorem runBuiltins_cons (stage : Stage) (stages : List Stage) (s : Streams) :
    runBuiltins host ends shell (reached ends) (stage :: stages) s =
      let built := buildStage host ends shell stages.isEmpty stage s
      let rest := runBuiltins host ends shell (reached ends) stages built.2
      (built.1 :: rest.1, rest.2) := by
  cases stage <;> rfl

theorem complete_cons (piped : Bytes) (ready : Ready) (rest : List Ready) (s : Streams) :
    complete ends piped (ready :: rest) s =
      let passed := passStage ends rest.isEmpty piped ready s
      let done := complete ends passed.2.1 rest passed.2.2
      (⟨passed.1 :: done.1.stages⟩, done.2) := by
  cases ready <;> rfl

/-- What becomes of stages when the builtins run and everything has come to its end. -/
def finish (works : List Stage → Bool) (stages : List Stage) (streams : Streams) : Job × Streams :=
  let (ready, streams) := runBuiltins host ends shell works stages streams
  complete ends [] ready streams

end Passes

/-- The status of a builtin that nobody reads. -/
def Stage.unreadStatus (host : Host) (shell : Shell) : Stage → Option Int
  | .deferred b arguments => some (b.run host arguments .pipeline false shell).outcome.status
  | _ => none

/-- A builtin that nobody reads any more writes nothing, which fails it as an output that does not
work does. -/
def Stage.unread (host : Host) (shell : Shell) : Stage → Stage
  | .deferred b arguments => .failed (b.run host arguments .pipeline false shell).outcome.status
  | stage => stage

/-- Stages, some of which have lost the readers behind them. -/
def loseReaders (host : Host) (shell : Shell) (lost : Nat → Bool) :
    (place : Nat) → List Stage → List Stage
  | _, [] => []
  | i, stage :: stages =>
    (if lost i && !stages.isEmpty then stage.unread host shell else stage) ::
      loseReaders host shell lost (i + 1) stages

/-- A stage that takes nothing from the pipe: no program that runs, or one that leaves all of it. -/
def Stage.TakesNothing : Stage → Prop
  | .running program _ => ∀ given, (program.run given).rest = given
  | _ => True

section Losses

variable {host : Host} {ends : Endpoints} {shell : Shell} {isLast : Bool} {lost : Nat → Bool}

variable (host shell) in
theorem builtin_unread (b : Builtin) (arguments : List String) :
    let unread := (b.run host arguments .pipeline false shell).outcome.status
    let heard := (b.run host arguments .pipeline true shell).outcome.status
    unread = heard ∨ unread = 1 ∧ heard = 0 := by
  cases b with
  | exit => exact Or.inl rfl
  | stopServer => exact Or.inl rfl
  | cd => exact Or.inl rfl
  | dragon => exact Or.inr ⟨rfl, rfl⟩
  | rc => exact Or.inr ⟨rfl, rfl⟩

/-- What a stage comes to that takes nothing does not depend on what it is given. -/
theorem passStage_takesNothing {stage : Stage} (h : stage.TakesNothing) (before : Streams)
    (piped piped' : Bytes) (t : Streams) :
    passStage ends isLast piped (buildStage host ends shell isLast stage before).1 t =
      passStage ends isLast piped' (buildStage host ends shell isLast stage before).1 t := by
  cases stage with
  | failed status => rfl
  | deferred b arguments => cases isLast <;> rfl
  | running program input =>
    cases input with
    | endpoint => rfl
    | file content => rfl
    | pipe =>
      simp only [buildStage, passStage, runProgram, program.run_idle (h piped),
        program.run_idle (h piped')]
      rfl

theorem isEmpty_runBuiltins (stages : List Stage) (s : Streams) :
    (runBuiltins host ends shell (reached ends) stages s).1.isEmpty = stages.isEmpty := by
  cases stages <;> rfl

theorem statuses_cons (front : List Int) (entry : Job.Stage) (j : Job) :
    front ++ Job.statuses ⟨entry :: j.stages⟩ = (front ++ [entry.wait]) ++ j.statuses :=
  List.append_cons front entry.wait j.statuses

/-- Two lists of stages that come to the same from here on, whatever stands before them. Only the
entries of builtins that are unread in the second may be others. -/
structure Unaffected (host : Host) (ends : Endpoints) (shell : Shell) (gone : Nat → Option Int)
    (stages stages' : List Stage) : Prop where
  empty : stages'.isEmpty = stages.isEmpty
  built : ∀ s, (runBuiltins host ends shell (reached ends) stages' s).2 =
    (runBuiltins host ends shell (reached ends) stages s).2
  completed : ∀ s piped t,
    let done := complete ends piped (runBuiltins host ends shell (reached ends) stages s).1 t
    let done' := complete ends piped (runBuiltins host ends shell (reached ends) stages' s).1 t
    done'.2 = done.2 ∧
      (∀ front,
        Status.ofStages (front ++ done'.1.statuses) = Status.ofStages (front ++ done.1.statuses)) ∧
      ∀ i, done'.1.stages[i]? = ((gone i).map .done).or done.1.stages[i]?

variable {gone : Nat → Option Int}

theorem Unaffected.cons (stage : Stage) {stages stages' : List Stage} (hread : gone 0 = none)
    (h : Unaffected host ends shell (fun i => gone (i + 1)) stages stages') :
    Unaffected host ends shell gone (stage :: stages) (stage :: stages') := by
  refine ⟨rfl, ?_, ?_⟩
  · intro s
    simp only [runBuiltins_cons, h.empty, h.built]
  · intro s piped t
    simp only [runBuiltins_cons, complete_cons, isEmpty_runBuiltins, h.empty, statuses_cons]
    obtain ⟨hstreams, hstatus, hentries⟩ := h.completed _ _ _
    refine ⟨hstreams, fun front => hstatus _, ?_⟩
    intro i
    cases i with
    | zero =>
      rw [hread]
      rfl
    | succ i => exact hentries i

/-- What stages come to whose first one takes nothing does not depend on the pipe before them. -/
theorem complete_takesNothing {reader : Stage} (h : reader.TakesNothing) (stages : List Stage)
    (piped piped' : Bytes) (s t : Streams) :
    complete ends piped (runBuiltins host ends shell (reached ends) (reader :: stages) s).1 t =
      complete ends piped'
        (runBuiltins host ends shell (reached ends) (reader :: stages) s).1 t := by
  simp only [runBuiltins_cons, complete_cons, isEmpty_runBuiltins]
  rw [passStage_takesNothing h s piped piped' t]

theorem Unaffected.unread (b : Builtin) (arguments : List String) {reader : Stage}
    {stages stages' : List Stage} (hreader : reader.TakesNothing)
    (hgone : gone 0 = some (b.run host arguments .pipeline false shell).outcome.status)
    (h : Unaffected host ends shell (fun i => gone (i + 1)) (reader :: stages) stages') :
    Unaffected host ends shell gone (.deferred b arguments :: reader :: stages)
      ((Stage.deferred b arguments).unread host shell :: stages') := by
  have hempty : stages'.isEmpty = false := h.empty
  refine ⟨rfl, ?_, ?_⟩
  · intro s
    rw [runBuiltins_cons, runBuiltins_cons]
    exact h.built s
  · intro s piped t
    let heard := b.run host arguments .pipeline true shell
    let unheard := b.run host arguments .pipeline false shell
    have hdone : complete ends piped (runBuiltins host ends shell (reached ends)
        (.deferred b arguments :: reader :: stages) s).1 t =
          let done := complete ends heard.output
            (runBuiltins host ends shell (reached ends) (reader :: stages) s).1 t
          (⟨.done heard.outcome.status :: done.1.stages⟩, done.2) := by
      rw [runBuiltins_cons, complete_cons]
      rfl
    have hdone' : complete ends piped (runBuiltins host ends shell (reached ends)
        ((Stage.deferred b arguments).unread host shell :: stages') s).1 t =
          let done := complete ends [] (runBuiltins host ends shell (reached ends) stages' s).1 t
          (⟨.done unheard.outcome.status :: done.1.stages⟩, done.2) := by
      rw [runBuiltins_cons, complete_cons]
      rfl
    obtain ⟨hstreams, hstatus, hentries⟩ := h.completed s [] t
    rw [complete_takesNothing hreader stages [] heard.output] at hstreams hstatus hentries
    simp only [hdone, hdone', statuses_cons]
    refine ⟨hstreams, fun front => (hstatus _).trans ?_, ?_⟩
    · -- What is left is the status of the builtin itself, which is never the last one.
      have hne : (complete ends heard.output (runBuiltins host ends shell (reached ends)
          (reader :: stages) s).1 t).1.statuses ≠ [] := by
        rw [runBuiltins_cons, complete_cons]
        exact List.cons_ne_nil _ _
      rcases builtin_unread host shell b arguments with hsame | ⟨hone, hzero⟩
      · exact congrArg (fun status => Status.ofStages ((front ++ [status]) ++ _)) hsame
      · simp only [Job.Stage.wait, unheard, heard, hone, hzero, List.append_assoc,
          List.singleton_append]
        rw [Status.ofStages_within (by decide) (by decide) front hne,
          Status.ofStages_within (by decide) (by decide) front hne]
    · intro i
      cases i with
      | zero =>
        rw [hgone]
        rfl
      | succ i => exact hentries i

/-- The statuses of the builtins that have lost their readers, each at its place. -/
def lostStatus (host : Host) (shell : Shell) (lost : Nat → Bool) (stages : List Stage) (i : Nat) :
    Option Int :=
  if lost i && decide (i + 1 < stages.length) then
    stages[i]?.bind (Stage.unreadStatus host shell)
  else none

variable (host ends shell lost) in
/-- Readers that take nothing are not missed. -/
theorem unaffected_loseReaders (stages : List Stage) (i : Nat)
    (h : ∀ j reader, lost (i + j) = true → stages[j + 1]? = some reader → reader.TakesNothing) :
    Unaffected host ends shell (lostStatus host shell (fun j => lost (i + j)) stages) stages
      (loseReaders host shell lost i stages) := by
  induction stages generalizing i with
  | nil =>
    refine ⟨rfl, fun _ => rfl, fun _ _ _ => ⟨rfl, fun _ => rfl, ?_⟩⟩
    intro j
    simp [lostStatus, loseReaders]
  | cons stage stages ih =>
    have hplaces : (fun j => lostStatus host shell (fun j => lost (i + j)) (stage :: stages)
        (j + 1)) = lostStatus host shell (fun j => lost (i + 1 + j)) stages := by
      funext j
      have hplace : i + 1 + j = i + (j + 1) := by omega
      simp only [lostStatus, hplace, List.length_cons, Nat.add_lt_add_iff_right,
        List.getElem?_cons_succ]
    have hrest := ih (i + 1) fun j reader hj hreader =>
      h (j + 1) reader (by rwa [Nat.add_right_comm, Nat.add_assoc] at hj) hreader
    rw [← hplaces] at hrest
    rw [loseReaders]
    split
    · case isTrue hlost =>
      obtain ⟨hi, hmore⟩ := Bool.and_eq_true_iff.1 hlost
      cases stages with
      | nil => cases hmore
      | cons reader stages =>
        cases stage with
        | failed | running => exact hrest.cons _ (by simp [lostStatus, Stage.unreadStatus])
        | deferred b arguments =>
          refine hrest.unread b arguments (h 0 reader hi rfl) ?_
          simp [lostStatus, Stage.unreadStatus, hi]
    · case isFalse hlost =>
      refine hrest.cons stage ?_
      cases stages with
      | nil => simp [lostStatus]
      | cons reader stages =>
        have hi : lost i = false := by simpa using hlost
        simp [lostStatus, hi]

/-- The places of stages whose reader could not be started. -/
def dropped (stages : List Stage) (i : Nat) : Bool :=
  match stages[i + 1]? with
  | some (.failed _) => true
  | _ => false

theorem takesNothing_of_dropped {stages : List Stage} {i : Nat} {reader : Stage}
    (h : dropped stages i = true) (hreader : stages[i + 1]? = some reader) :
    reader.TakesNothing := by
  rw [dropped, hreader] at h
  cases reader with
  | failed status => trivial
  | running program input => cases h
  | deferred b arguments => trivial

variable (host ends shell) in
/-- Builtins whose readers could not be started do what they do when their readers are lost. -/
theorem runBuiltins_heard (stages : List Stage) (i : Nat)
    (h : ∀ j, lost (i + j) = dropped stages j) (s : Streams) :
    runBuiltins host ends shell (heard ends) stages s =
      runBuiltins host ends shell (reached ends) (loseReaders host shell lost i stages) s := by
  induction stages generalizing i s with
  | nil => rfl
  | cons stage stages ih =>
    have hrest := ih (i + 1) fun j => by rw [Nat.add_assoc, Nat.add_comm 1, h (j + 1)]; rfl
    have hfirst : lost i = dropped (stage :: stages) 0 := h 0
    cases stage with
    | failed | running => simp only [loseReaders, Stage.unread, ite_self, runBuiltins, hrest]
    | deferred b arguments =>
      cases stages with
      | nil =>
        simp only [loseReaders, List.isEmpty_nil, Bool.not_true, Bool.and_false]
        rfl
      | cons reader stages =>
        rw [loseReaders, runBuiltins]
        cases reader with
        | failed status =>
          have hlost : lost i = true := hfirst
          simp only [hlost, List.isEmpty_cons, Bool.not_false, Bool.and_true, if_true, hrest]
          rfl
        | running | deferred =>
          have hlost : lost i = false := hfirst
          simp only [hlost, Bool.false_and, Bool.false_eq_true, if_false, hrest]
          rfl

/-- Only stages that take nothing are missing as readers. -/
def Unheard (lost : Nat → Bool) (stages : List Stage) : Prop :=
  ∀ i reader, lost i = true → stages[i + 1]? = some reader → reader.TakesNothing

variable (host ends shell) in
/-- Stages come to the same when readers are missing that take nothing, but for the entries of
builtins that are unread then. -/
theorem finish_losing {stages : List Stage} (h : Unheard lost stages) (s : Streams) :
    let other := finish host ends shell (reached ends) (loseReaders host shell lost 0 stages) s
    let ideal := finish host ends shell (reached ends) stages s
    other.2 = ideal.2 ∧ Status.ofStages other.1.statuses = Status.ofStages ideal.1.statuses ∧
      ∀ i, other.1.stages[i]? =
        ((lostStatus host shell lost stages i).map .done).or ideal.1.stages[i]? := by
  have hplaces : (fun j => lost (0 + j)) = lost := by
    funext j
    rw [Nat.zero_add]
  obtain ⟨-, hbuilt, hdone⟩ := unaffected_loseReaders host ends shell lost stages 0
    fun j reader hj hreader => h j reader (by rwa [Nat.zero_add] at hj) hreader
  rw [hplaces] at hdone
  obtain ⟨hstreams, hstatus, hentries⟩ :=
    hdone s [] (runBuiltins host ends shell (reached ends) stages s).2
  simp only [finish, hbuilt]
  exact ⟨hstreams, hstatus [], hentries⟩

variable (host ends shell) in
/-- Readers that could not be started are among the missing ones. -/
theorem finish_heard (stages : List Stage) (s : Streams) :
    let done := finish host ends shell (heard ends) stages s
    let ideal := finish host ends shell (reached ends) stages s
    done.2 = ideal.2 ∧ Status.ofStages done.1.statuses = Status.ofStages ideal.1.statuses ∧
      ∀ i, done.1.stages[i]? = ((lostStatus host shell (dropped stages) stages i).map .done).or
        ideal.1.stages[i]? := by
  have hheard : finish host ends shell (heard ends) stages s = finish host ends shell
      (reached ends) (loseReaders host shell (dropped stages) 0 stages) s := by
    simp only [finish, runBuiltins_heard host ends shell stages 0
      (fun j => by rw [Nat.zero_add]) s]
  simp only [hheard]
  exact finish_losing host ends shell (fun _ _ => takesNothing_of_dropped) s

theorem lostStatus_dropped (stages : List Stage) (i : Nat) :
    lostStatus host shell (dropped stages) stages i =
      if dropped stages i then stages[i]?.bind (Stage.unreadStatus host shell) else none := by
  cases hdropped : dropped stages i with
  | false => simp [lostStatus, hdropped]
  | true =>
    have hlt : i + 1 < stages.length := by
      by_contra hge
      rw [dropped, List.getElem?_eq_none (Nat.le_of_not_lt hge)] at hdropped
      cases hdropped
    simp [lostStatus, hdropped, hlt]

end Losses

section Pipelines

variable (host : Host) (ends : Endpoints) (shell : Shell)

/-- What a command is when everything that can be started has been. -/
def started (workDir : String) (isFirst : Bool) (c : Command) : Stage :=
  match Builtin.named c.name with
  | some b => .deferred b c.arguments
  | none =>
    match launch host workDir isFirst c with
    | .ok (program, input) => .running program input
    | .error d => .failed d.status

theorem launchStage_started (workDir : String) (isFirst isLast : Bool) (c : Command)
    (s : Streams) :
    (launchStage host ends workDir isFirst isLast c s).1 = started host workDir isFirst c := by
  cases hb : Builtin.named c.name with
  | some b => simp only [launchStage, started, hb]
  | none =>
    cases hl : launch host workDir isFirst c with
    | ok program => simp only [launchStage, started, hb, hl]
    | error d => simp only [launchStage, started, hb, hl]

theorem getElem?_launchStages (workDir : String) (isFirst : Bool) (p : Pipeline) (s : Streams)
    (i : Nat) : (launchStages host ends workDir isFirst p s).1[i]? =
      p[i]?.map (started host workDir (isFirst && i == 0)) := by
  induction p generalizing isFirst s i with
  | nil => rfl
  | cons c cs ih =>
    simp only [launchStages]
    cases i with
    | zero =>
      rw [List.getElem?_cons_zero, List.getElem?_cons_zero, launchStage_started]
      simp
    | succ i =>
      rw [List.getElem?_cons_succ, List.getElem?_cons_succ, ih]
      simp

/-- The job of a pipeline none of whose pipes loses its reader. -/
def jobReached (p : Pipeline) (streams : Streams) : Job × Streams :=
  finish host ends shell (reached ends) (launchStages host ends shell.workDir true p streams).1
    (launchStages host ends shell.workDir true p streams).2

/-- A builtin that writes to a program that cannot be started. -/
def Unread (p : Pipeline) (i : Nat) : Prop :=
  (∃ c b, p[i]? = some c ∧ Builtin.named c.name = some b) ∧ ∃ d, Fails host shell p (i + 1) d

theorem Unread.named_ne_none {host : Host} {shell : Shell} {p : Pipeline} {i : Nat} {c : Command}
    (h : Unread host shell p i) (hc : p[i]? = some c) : Builtin.named c.name ≠ none := by
  obtain ⟨⟨c', b, hc', hb⟩, -⟩ := h
  obtain rfl := Option.some.inj (hc.symm.trans hc')
  rw [hb]
  exact Option.some_ne_none b

/-- Statuses that are the others, but for failures where these are none, at some of the places. -/
def FailedAt (places : Nat → Prop) (statuses others : List Int) : Prop :=
  ∀ i, statuses[i]? = others[i]? ∨ places i ∧ statuses[i]? = some 1 ∧ others[i]? = some 0

theorem FailedAt.length_eq {places : Nat → Prop} {statuses others : List Int}
    (h : FailedAt places statuses others) : statuses.length = others.length := by
  apply Nat.le_antisymm
  · rw [← List.getElem?_eq_none_iff]
    rcases h others.length with hsame | ⟨-, -, hzero⟩
    · exact hsame.trans (List.getElem?_eq_none (Nat.le_refl _))
    · rw [List.getElem?_eq_none (Nat.le_refl _)] at hzero
      cases hzero
  · rw [← List.getElem?_eq_none_iff]
    rcases h statuses.length with hsame | ⟨-, hone, -⟩
    · exact hsame.symm.trans (List.getElem?_eq_none (Nat.le_refl _))
    · rw [List.getElem?_eq_none (Nat.le_refl _)] at hone
      cases hone

theorem dropped_launchStages (p : Pipeline) (s : Streams) (i : Nat) :
    dropped (launchStages host ends shell.workDir true p s).1 i = true ↔
      ∃ d, Fails host shell p (i + 1) d := by
  rw [dropped, getElem?_launchStages]
  cases hc : p[i + 1]? with
  | none => simp [Fails, hc]
  | some c =>
    cases hb : Builtin.named c.name with
    | some b => simp [Fails, hc, hb, started]
    | none =>
      cases hl : launch host shell.workDir false c with
      | ok program => simp [Fails, hc, hb, hl, started, ← launch_error_iff]
      | error d => simp [Fails, hc, hb, hl, started, ← launch_error_iff]

theorem unreadStatus_started (workDir : String) (isFirst : Bool) (c : Command) :
    (started host workDir isFirst c).unreadStatus host shell =
      (Builtin.named c.name).map fun b =>
        (b.run host c.arguments .pipeline false shell).outcome.status := by
  cases hb : Builtin.named c.name with
  | some b => simp only [started, hb, Stage.unreadStatus, Option.map_some]
  | none =>
    cases hl : launch host workDir isFirst c with
    | ok program => simp only [started, hb, hl, Stage.unreadStatus, Option.map_none]
    | error d => simp only [started, hb, hl, Stage.unreadStatus, Option.map_none]

theorem lostStatus_eq_none {p : Pipeline} {i : Nat} (h : ¬ Unread host shell p i) (s : Streams) :
    lostStatus host shell (dropped (launchStages host ends shell.workDir true p s).1)
      (launchStages host ends shell.workDir true p s).1 i = none := by
  rw [lostStatus_dropped]
  split
  · case isTrue hdropped =>
    rw [dropped_launchStages] at hdropped
    rw [getElem?_launchStages]
    cases hc : p[i]? with
    | none => rfl
    | some c =>
      rw [Option.map_some, Option.bind_some, unreadStatus_started]
      cases hb : Builtin.named c.name with
      | none => rfl
      | some b => exact absurd ⟨⟨c, b, hc, hb⟩, hdropped⟩ h
  · rfl

/-- A builtin is all that can be unread. -/
theorem lostStatus_eq_some {lost : Nat → Bool} {p : Pipeline} {s : Streams} {i : Nat}
    {status : Int} (h : lostStatus host shell lost
      (launchStages host ends shell.workDir true p s).1 i = some status) :
    lost i = true ∧ ∃ c b, p[i]? = some c ∧ Builtin.named c.name = some b ∧
      (b.run host c.arguments .pipeline false shell).outcome.status = status := by
  rw [lostStatus, getElem?_launchStages] at h
  split at h
  · case isTrue hlost =>
    obtain ⟨hi, -⟩ := Bool.and_eq_true_iff.1 hlost
    cases hc : p[i]? with
    | none =>
      rw [hc] at h
      cases h
    | some c =>
      rw [hc, Option.map_some, Option.bind_some, unreadStatus_started] at h
      obtain ⟨b, hb, hstatus⟩ := Option.map_eq_some_iff.1 h
      exact ⟨hi, c, b, rfl, hb, hstatus⟩
  · cases h

/-- A pipeline comes to what it comes to when every pipe has its reader, but for the entries of
builtins that nobody reads. -/
theorem job_heard (p : Pipeline) (s : Streams) :
    let done := job host ends p shell s
    let ideal := jobReached host ends shell p s
    done.2 = ideal.2 ∧ Status.ofStages done.1.statuses = Status.ofStages ideal.1.statuses ∧
      (∀ i, ¬ Unread host shell p i → done.1.stages[i]? = ideal.1.stages[i]?) ∧
      ∀ i c b d, p[i]? = some c → Builtin.named c.name = some b → Fails host shell p (i + 1) d →
        done.1.stages[i]? =
          some (.done (b.run host c.arguments .pipeline false shell).outcome.status) := by
  intro done ideal
  obtain ⟨hstreams, hstatus, hentries⟩ := finish_heard host ends shell
    (launchStages host ends shell.workDir true p s).1
    (launchStages host ends shell.workDir true p s).2
  refine ⟨hstreams, hstatus, ?_, ?_⟩
  · intro i hread
    refine (hentries i).trans ?_
    rw [lostStatus_eq_none host ends shell hread]
    rfl
  · intro i c b d hc hb hfail
    refine (hentries i).trans ?_
    have hdropped := (dropped_launchStages host ends shell p s i).2 ⟨d, hfail⟩
    rw [lostStatus_dropped, if_pos hdropped, getElem?_launchStages, hc, Option.map_some,
      Option.bind_some, unreadStatus_started, hb]
    rfl

/-- The job of a pipeline, some of whose stages have lost the readers behind them when the builtins
run, besides those whose readers could not be started. -/
def jobLosing (lost : Nat → Bool) (p : Pipeline) (streams : Streams) : Job × Streams :=
  let (stages, streams) := launchStages host ends shell.workDir true p streams
  let stages := loseReaders host shell (fun i => lost i || dropped stages i) 0 stages
  finish host ends shell (reached ends) stages streams

/-- Nothing tells of lost readers that take nothing but the entries of builtins that are unread
then. -/
theorem jobLosing_eq {lost : Nat → Bool} {p : Pipeline} {s : Streams}
    (h : Unheard lost (launchStages host ends shell.workDir true p s).1) :
    let stages := (launchStages host ends shell.workDir true p s).1
    let other := jobLosing host ends shell lost p s
    let done := job host ends p shell s
    other.2 = done.2 ∧ Status.ofStages other.1.statuses = Status.ofStages done.1.statuses ∧
      ∀ i, other.1.stages[i]? =
        ((lostStatus host shell lost stages i).map .done).or done.1.stages[i]? := by
  intro stages other done
  have hreaders : Unheard (fun i => lost i || dropped stages i) stages := by
    intro i reader hi hreader
    rcases Bool.or_eq_true_iff.1 hi with hlost | hdropped
    · exact h i reader hlost hreader
    · exact takesNothing_of_dropped hdropped hreader
  have hboth : ∀ i, lostStatus host shell (fun i => lost i || dropped stages i) stages i =
      (lostStatus host shell lost stages i).or
        (lostStatus host shell (dropped stages) stages i) := by
    intro i
    cases hi : lost i with
    | false => simp [lostStatus, hi]
    | true => cases hd : dropped stages i <;> simp [lostStatus, hi, hd]
  let launched := (launchStages host ends shell.workDir true p s).2
  obtain ⟨hstreams, hstatus, hentries⟩ := finish_losing host ends shell hreaders launched
  obtain ⟨hstreams', hstatus', hentries'⟩ := finish_heard host ends shell stages launched
  refine ⟨hstreams.trans hstreams'.symm, hstatus.trans hstatus'.symm, ?_⟩
  intro i
  have hentry := hentries i
  rw [hboth, Option.map_or, Option.or_assoc] at hentry
  exact hentry.trans (congrArg _ (hentries' i).symm)

end Pipelines

end Execution
end PipeShell
