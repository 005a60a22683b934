import PipeShell.Proofs.Shell.Isolation

/-! Stages that cannot be started, and programs in their place. A program that reads nothing, writes
the diagnostic to its errors and ends with the status of the failure does for a pipeline what the
failure does. -/
namespace PipeShell
namespace Execution

/-- A program that does nothing but to report a failure. -/
structure StandsIn (d : Diagnostic) (program : Invocation) : Prop where
  rest : ∀ input, (program.run input).rest = input
  output : ∀ input, (program.run input).written .output = []
  errors : ∀ input, (program.run input).written .errors = Utf8.ofString d.line
  status : ∀ input, (program.run input).child.wait = d.status

/-- Starts the program in place of a stage, or the stage itself if there is none. -/
def launchOr (host : Host) (ends : Endpoints) (workDir : String) (program : Option Invocation)
    (isFirst isLast : Bool) (c : Command) (streams : Streams) : Stage × Streams :=
  match program with
  | some program => (.running program (if isFirst then .endpoint else .pipe), streams)
  | none => launchStage host ends workDir isFirst isLast c streams

/-- Starts a pipeline with programs in place of some of its stages. -/
def launchReplaced (host : Host) (ends : Endpoints) (workDir : String)
    (programs : Nat → Option Invocation) : (place : Nat) → Pipeline → Streams →
      List Stage × Streams
  | _, [], streams => ([], streams)
  | i, c :: cs, streams =>
    let (stage, streams) := launchOr host ends workDir (programs i) (i == 0) cs.isEmpty c streams
    let (stages, streams) := launchReplaced host ends workDir programs (i + 1) cs streams
    (stage :: stages, streams)

/-- The job of a pipeline with programs in place of some of its stages. -/
def jobReplaced (host : Host) (ends : Endpoints) (programs : Nat → Option Invocation)
    (p : Pipeline) (shell : Shell) (streams : Streams) : Job × Streams :=
  let (stages, streams) := launchReplaced host ends shell.workDir programs 0 p streams
  let (ready, streams) := runBuiltins host ends shell (heard ends) stages streams
  complete ends [] ready streams

def runReplaced (host : Host) (ends : Endpoints) (programs : Nat → Option Invocation)
    (p : Pipeline) (shell : Shell) (streams : Streams) : Execution :=
  let (job, streams) := jobReplaced host ends programs p shell streams
  ⟨.ok (Status.ofStages job.wait.1), shell, streams⟩

/-- A program that writes a line to its errors and ends with a status. -/
def standIn (d : Diagnostic) : Invocation :=
  { actions := [.errors (Utf8.ofString d.line), .exit d.status], arguments := [], directory := "/" }

theorem Diagnosed.standsIn {host : Host} {workDir : String} {isFirst : Bool} {c : Command}
    {d : Diagnostic} (h : Diagnosed host workDir isFirst c d) : StandsIn d (standIn d) := by
  have hstatus : d.status % 256 = d.status := by
    rcases h.status with hstatus | hstatus <;> rw [hstatus] <;> rfl
  have hrun : ∀ input, (standIn d).run input =
      { rest := input, writes := [(.errors, Utf8.ofString d.line)], child := .ended d.status } := by
    intro input
    simp only [Invocation.run, standIn, Invocation.perform, Run.after, hstatus, Child.ended]
  constructor <;> intro input <;> rw [hrun]
  · rfl
  · exact List.append_nil _
  · rfl

theorem Fails.standIn {host : Host} {shell : Shell} {p : Pipeline} {i : Nat} {d : Diagnostic}
    (h : Fails host shell p i d) : ∃ d', Fails host shell p i d' ∧ StandsIn d' (standIn d) := by
  obtain ⟨c, hc, hb, hd⟩ := h
  exact ⟨d, ⟨c, hc, hb, hd⟩, hd.standsIn⟩

section Debts

variable {ends : Endpoints} {writes owed : Writes} {bytes aside : Bytes} {s t s' t' : Streams}

/-- The writes of a run that puts nothing to its output arrive as one write to its errors does. -/
theorem arriving_errors (ends : Endpoints) {run : Run} (h : run.written .output = []) :
    arrivingOutput ends run.writes = arrivingOutput ends [(.errors, run.written .errors)] ∧
      arrivingErrors ends run.writes = arrivingErrors ends [(.errors, run.written .errors)] := by
  obtain ⟨rest, writes, child⟩ := run
  simp only [Run.written] at h ⊢
  induction writes with
  | nil => simp [arrivingOutput, arrivingErrors]
  | cons w writes ih =>
    obtain ⟨channel, bytes⟩ := w
    cases channel with
    | output =>
      obtain ⟨rfl, hrest⟩ : bytes = [] ∧ (writes.filter (·.1 == .output)).flatMap (·.2) = [] := by
        simpa using h
      simpa [arrivingOutput, arrivingErrors] using ih hrest
    | errors =>
      have hrest : (writes.filter (·.1 == .output)).flatMap (·.2) = [] := by simpa using h
      obtain ⟨houtput, herrors⟩ := ih hrest
      have hone := arrivingOutput_append ends [(.errors, bytes)] writes
      have hown := arrivingErrors_append ends [(.errors, bytes)] writes
      rw [List.singleton_append] at hone hown
      rw [hone, hown, houtput, herrors]
      simp only [arrivingOutput, arrivingErrors, List.flatMap_singleton, List.filter_cons]
      constructor <;> split <;> simp

/-- What a step of a pipeline has written: some writes to the endpoints, and some bytes to the
inherited errors. It has read nothing. -/
structure Adds (ends : Endpoints) (writes : Writes) (bytes : Bytes) (s t : Streams) : Prop where
  delivered : Delivered ends writes s t
  input : t.input = s.input
  inherited : t.inherited = s.inherited ++ bytes

/-- The streams of two pipelines of which the second still owes some writes to the endpoints and
some bytes to the inherited errors. -/
structure Owes (ends : Endpoints) (owed : Writes) (aside : Bytes) (s t : Streams) : Prop where
  input : s.input = t.input
  output : s.output = t.output ++ arrivingOutput ends owed
  errors : s.errors = t.errors ++ arrivingErrors ends owed
  inherited : s.inherited.Perm (t.inherited ++ aside)

/-- Both pipelines write the same, though nothing to an endpoint that the second has debts at. -/
theorem Owes.both (h : Owes ends owed aside s t) (hs : Adds ends writes bytes s s')
    (ht : Adds ends writes bytes t t') (hw : writes = [] ∨ owed = []) :
    Owes ends owed aside s' t' := by
  refine ⟨?_, ?_, ?_, ?_⟩
  · rw [hs.input, ht.input, h.input]
  · rw [hs.delivered.output, ht.delivered.output, h.output]
    rcases hw with rfl | rfl <;> simp [arrivingOutput]
  · rw [hs.delivered.errors, ht.delivered.errors, h.errors]
    rcases hw with rfl | rfl <;> simp [arrivingErrors]
  · rw [hs.inherited, ht.inherited, List.append_assoc]
    refine (h.inherited.append_right bytes).trans ?_
    rw [List.append_assoc]
    exact .append_left _ List.perm_append_comm

theorem Owes.perm {other : Bytes} (h : Owes ends owed aside s t) (hp : aside.Perm other) :
    Owes ends owed other s t :=
  ⟨h.input, h.output, h.errors, h.inherited.trans (.append_left _ hp)⟩

/-- What only the first pipeline writes is owed by the second. -/
theorem Owes.incur (h : Owes ends [] aside s t) (hs : Adds ends writes bytes s s') :
    Owes ends writes (aside ++ bytes) s' t := by
  refine ⟨hs.input.trans h.input, ?_, ?_, ?_⟩
  · rw [hs.delivered.output, h.output]
    simp [arrivingOutput]
  · rw [hs.delivered.errors, h.errors]
    simp [arrivingErrors]
  · rw [hs.inherited, ← List.append_assoc]
    exact h.inherited.append_right bytes

/-- The second pipeline pays a debt when it writes what arrives in the same way. -/
theorem Owes.pay {later : Writes} (h : Owes ends (owed ++ later) (aside ++ bytes) s t)
    (ht : Adds ends writes bytes t t')
    (houtput : arrivingOutput ends writes = arrivingOutput ends owed)
    (herrors : arrivingErrors ends writes = arrivingErrors ends owed) :
    Owes ends later aside s t' := by
  refine ⟨h.input.trans ht.input.symm, ?_, ?_, ?_⟩
  · rw [ht.delivered.output, h.output, houtput, arrivingOutput_append, List.append_assoc]
  · rw [ht.delivered.errors, h.errors, herrors, arrivingErrors_append, List.append_assoc]
  · rw [ht.inherited, List.append_assoc]
    exact h.inherited.trans (.append_left _ List.perm_append_comm)

/-- The last of the stages writes to the endpoints, all others to the inherited errors. -/
theorem adds_handOver (ends : Endpoints) (isLast : Bool) (run : Run) (s : Streams) :
    Adds ends (if isLast then run.writes else []) (if isLast then [] else run.written .errors) s
      (handOver ends isLast run s) := by
  cases isLast with
  | true =>
    refine ⟨.all ends run.writes s, handOver_input ends s true run, ?_⟩
    exact (deliver_inherited ends run.writes s).trans (List.append_nil _).symm
  | false => exact ⟨.nothing rfl rfl, rfl, rfl⟩

end Debts

section Passes

variable (host : Host) (ends : Endpoints) (shell : Shell)

/-- One stage in two pipelines through the three passes. What the second owes more than before when
its stage has been started is paid when the stage has come to its end. -/
structure StageAlike (program : Option Invocation) (isFirst isLast : Bool) (c : Command)
    (stage stage' : Stage) (made made' : Ready) (owed : Writes) (aside : Bytes) : Prop where
  debt : isLast = false → owed = []
  launched : ∀ {s t a}, Owes ends [] a s t → ∃ s' t',
    launchStage host ends shell.workDir isFirst isLast c s = (stage, s') ∧
      launchOr host ends shell.workDir program isFirst isLast c t = (stage', t') ∧
      Owes ends owed (a ++ aside) s' t'
  built : ∀ {s t o a}, (isLast = true → o = owed) → Owes ends o a s t → ∃ s' t',
    buildStage host ends shell isLast stage s = (made, s') ∧
      buildStage host ends shell isLast stage' t = (made', t') ∧ Owes ends o a s' t'
  completed : ∀ piped {s t o a}, (isLast = true → o = []) →
    Owes ends (owed ++ o) (a ++ aside) s t → ∃ entry entry' left s' t',
      passStage ends isLast piped made s = (entry, left, s') ∧
        passStage ends isLast piped made' t = (entry', left, t') ∧ entry.wait = entry'.wait ∧
        (program = none → entry' = entry) ∧ Owes ends o a s' t'

variable {host ends shell} {isFirst isLast : Bool} {c : Command}

theorem writes_of_last {writes owed : Writes} (h : isLast = true → owed = []) :
    (if isLast then writes else []) = [] ∨ owed = [] := by
  cases isLast with
  | true => exact Or.inr (h rfl)
  | false => exact Or.inl rfl

/-- A builtin does the same in both pipelines. -/
theorem stageAlike_deferred {b : Builtin} (hb : Builtin.named c.name = some b) :
    ∃ stage made, StageAlike host ends shell none isFirst isLast c stage stage made made [] [] := by
  let result := b.run host c.arguments .pipeline (!isLast || ends.outputWorks) shell
  let run : Run := { rest := [], writes := [(.output, result.output)] }
  have hrun : ∀ s, runDeferred host ends shell isLast (!isLast || ends.outputWorks) b c.arguments
      s = (.finished result.outcome.status (if isLast then [] else result.output),
        handOver ends isLast run s) := by
    intro s
    cases isLast with
    | true => rfl
    | false =>
      have hwritten : run.written .errors = [] := rfl
      simp only [runDeferred, handOver, hwritten, Streams.writeInherited, List.append_nil]
      rfl
  refine ⟨.deferred b c.arguments,
    .finished result.outcome.status (if isLast then [] else result.output), fun _ => rfl, ?_, ?_,
    ?_⟩
  · intro s t a h
    refine ⟨s, t, by simp only [launchStage, hb], by simp only [launchOr, launchStage, hb], ?_⟩
    rwa [List.append_nil]
  · intro s t o a ho h
    exact ⟨_, _, hrun s, hrun t, h.both (adds_handOver ends isLast run s)
      (adds_handOver ends isLast run t) (writes_of_last ho)⟩
  · intro piped s t o a _ h
    rw [List.append_nil] at h
    exact ⟨_, _, _, s, t, rfl, rfl, rfl, fun _ => rfl, h⟩

/-- A diagnostic goes where the errors of its stage go. -/
theorem report_eq (line : String) (s : Streams) : report ends isLast line s =
    handOver ends isLast { rest := [], writes := [(.errors, Utf8.ofString line)] } s := by
  cases isLast with
  | true => rfl
  | false =>
    have hwritten : Run.written { rest := [], writes := [(.errors, Utf8.ofString line)] } .errors =
        Utf8.ofString line := List.append_nil _
    simp only [report, handOver, hwritten, Bool.false_eq_true, if_false]

/-- A stage that is not started does the same in both pipelines when nothing is in its place. -/
theorem stageAlike_failed {d : Diagnostic} (hb : Builtin.named c.name = none)
    (hl : launch host shell.workDir isFirst c = .error d) :
    ∃ stage made, StageAlike host ends shell none isFirst isLast c stage stage made made [] [] := by
  have hstage : ∀ s, launchStage host ends shell.workDir isFirst isLast c s =
      (.failed d.status, report ends isLast d.line s) := by
    intro s
    simp only [launchStage, hb, hl]
  refine ⟨.failed d.status, .finished d.status [], fun _ => rfl, ?_, ?_, ?_⟩
  · intro s t a h
    refine ⟨_, _, hstage s, hstage t, ?_⟩
    rw [report_eq, report_eq, List.append_nil]
    exact h.both (adds_handOver ends isLast _ s) (adds_handOver ends isLast _ t) (Or.inr rfl)
  · intro s t o a _ h
    exact ⟨s, t, rfl, rfl, h⟩
  · intro piped s t o a _ h
    rw [List.append_nil] at h
    exact ⟨_, _, _, s, t, rfl, rfl, rfl, fun _ => rfl, h⟩

/-- A running program does the same in both pipelines. -/
theorem stageAlike_running {program : Invocation} {input : StageInput}
    (hb : Builtin.named c.name = none)
    (hl : launch host shell.workDir isFirst c = .ok (program, input)) :
    ∃ stage made, StageAlike host ends shell none isFirst isLast c stage stage made made [] [] := by
  have hstage : ∀ s, launchStage host ends shell.workDir isFirst isLast c s =
      (.running program input, s) := by
    intro s
    simp only [launchStage, hb, hl]
  refine ⟨.running program input, .running program input, fun _ => rfl, ?_, ?_, ?_⟩
  · intro s t a h
    refine ⟨s, t, hstage s, hstage t, ?_⟩
    rwa [List.append_nil]
  · intro s t o a _ h
    exact ⟨s, t, rfl, rfl, h⟩
  · intro piped s t o a ho h
    rw [List.append_nil, List.nil_append] at h
    have hboth : ∀ run, Owes ends o a (handOver ends isLast run s) (handOver ends isLast run t) :=
      fun run => h.both (adds_handOver ends isLast run s) (adds_handOver ends isLast run t)
        (writes_of_last ho)
    by_cases hi : input = .endpoint
    · subst hi
      simp only [passStage, runProgram_endpoint, h.input]
      exact ⟨_, _, _, _, _, rfl, rfl, rfl, fun _ => rfl, rfl, (hboth _).output,
        (hboth _).errors, (hboth _).inherited⟩
    · obtain ⟨run, hrun⟩ := runProgram_elsewhere ends isLast program piped hi
      simp only [passStage, hrun]
      exact ⟨_, _, _, _, _, rfl, rfl, rfl, fun _ => rfl, hboth run⟩

/-- A program in place of a stage takes nothing of what its stage is given. -/
theorem StandsIn.runProgram {d : Diagnostic} {program : Invocation} (h : StandsIn d program)
    (ends : Endpoints) (isFirst isLast : Bool) (piped : Bytes) (t : Streams) : ∃ input,
      runProgram ends isLast program (if isFirst then .endpoint else .pipe) piped t =
        (program.run input, handOver ends isLast (program.run input) t) := by
  cases isFirst with
  | true =>
    refine ⟨t.input, (runProgram_endpoint ends t isLast program piped).trans ?_⟩
    have hself := Streams.withInput_self (handOver ends isLast (program.run t.input) t)
    rw [handOver_input] at hself
    rw [h.rest, hself]
  | false => exact ⟨piped, rfl⟩

/-- A stage that is not started does in the first pipeline what the program in its place does in
the second, only earlier. -/
theorem stageAlike_replaced {d : Diagnostic} {program : Invocation}
    (hb : Builtin.named c.name = none) (hl : launch host shell.workDir isFirst c = .error d)
    (hp : StandsIn d program) : ∃ stage stage' made made', StageAlike host ends shell (some program)
      isFirst isLast c stage stage' made made'
      (if isLast then [(.errors, Utf8.ofString d.line)] else [])
      (if isLast then [] else Utf8.ofString d.line) := by
  let reported : Run := { rest := [], writes := [(.errors, Utf8.ofString d.line)] }
  have hline : reported.written .errors = Utf8.ofString d.line := List.append_nil _
  -- The report comes when the stages are started in the first pipeline and when they are completed
  -- in the second, where it is owed in between.
  refine ⟨.failed d.status, .running program (if isFirst then .endpoint else .pipe),
    .finished d.status [], .running program (if isFirst then .endpoint else .pipe), ?_, ?_, ?_, ?_⟩
  · intro hlast
    rw [hlast]
    rfl
  · intro s t a h
    refine ⟨handOver ends isLast reported s, t, ?_, rfl, ?_⟩
    · rw [← report_eq]
      simp only [launchStage, hb, hl]
    · have hadds := adds_handOver ends isLast reported s
      rw [hline] at hadds
      exact h.incur hadds
  · intro s t o a _ h
    exact ⟨s, t, rfl, rfl, h⟩
  · intro piped s t o a _ h
    obtain ⟨input, hrun⟩ := hp.runProgram ends isFirst isLast piped t
    have hadds := adds_handOver ends isLast (program.run input) t
    obtain ⟨houtput, herrors⟩ := arriving_errors ends (hp.output input)
    rw [hp.errors] at hadds houtput herrors
    refine ⟨.done d.status, .running (program.run input).child, [], s, _, rfl, ?_,
      (hp.status input).symm, fun hnone => absurd hnone (Option.some_ne_none _), h.pay hadds ?_ ?_⟩
    · simp only [passStage, hrun, hp.output]
    · cases isLast with
      | true => exact houtput
      | false => rfl
    · cases isLast with
      | true => exact herrors
      | false => rfl

/-- A stage that has no program in its place does the same in both pipelines. -/
theorem stageAlike_untouched (host : Host) (ends : Endpoints) (shell : Shell)
    (isFirst isLast : Bool) (c : Command) :
    ∃ stage made, StageAlike host ends shell none isFirst isLast c stage stage made made [] [] := by
  cases hb : Builtin.named c.name with
  | some b => exact stageAlike_deferred hb
  | none =>
    cases hl : launch host shell.workDir isFirst c with
    | error d => exact stageAlike_failed hb hl
    | ok started => exact stageAlike_running hb hl

/-- A pipeline from some place on, in two versions of which the second has programs in place of
some stages that are not started in the first, through the three passes. -/
structure Alike (host : Host) (ends : Endpoints) (shell : Shell)
    (programs : Nat → Option Invocation) (i : Nat) (p : Pipeline) (stages stages' : List Stage)
    (ready ready' : List Ready) (owed : Writes) (aside : Bytes) : Prop where
  empty : stages.isEmpty = p.isEmpty ∧ stages'.isEmpty = p.isEmpty ∧ ready.isEmpty = p.isEmpty ∧
    ready'.isEmpty = p.isEmpty
  debt : p = [] → owed = []
  launched : ∀ {s t o a}, (p ≠ [] → o = []) → Owes ends o a s t → ∃ s' t',
    launchStages host ends shell.workDir (i == 0) p s = (stages, s') ∧
      launchReplaced host ends shell.workDir programs i p t = (stages', t') ∧
      Owes ends (o ++ owed) (a ++ aside) s' t'
  built : ∀ {s t o a}, (p ≠ [] → o = owed) → Owes ends o a s t → ∃ s' t',
    runBuiltins host ends shell (reached ends) stages s = (ready, s') ∧
      runBuiltins host ends shell (reached ends) stages' t = (ready', t') ∧ Owes ends o a s' t'
  completed : ∀ piped {s t a}, Owes ends owed (a ++ aside) s t → ∃ done done' s' t',
    complete ends piped ready s = (done, s') ∧ complete ends piped ready' t = (done', t') ∧
      done.statuses = done'.statuses ∧
      (∀ j, programs (i + j) = none → done'.stages[j]? = done.stages[j]?) ∧ Owes ends [] a s' t'

theorem alike_nil (programs : Nat → Option Invocation) (i : Nat) :
    Alike host ends shell programs i [] [] [] [] [] [] [] := by
  refine ⟨⟨rfl, rfl, rfl, rfl⟩, fun _ => rfl, ?_, ?_, ?_⟩
  · intro s t o a _ h
    refine ⟨s, t, rfl, rfl, ?_⟩
    rwa [List.append_nil, List.append_nil]
  · intro s t o a _ h
    exact ⟨s, t, rfl, rfl, h⟩
  · intro piped s t a h
    rw [List.append_nil] at h
    exact ⟨{}, {}, s, t, rfl, rfl, rfl, fun _ _ => rfl, h⟩

/-- Lists that are the same at the places without a program, one place further on. -/
theorem same_cons {α : Type} {programs : Nat → Option Invocation} {i : Nat} {x x' : α}
    {xs xs' : List α} (hx : programs i = none → x' = x)
    (hxs : ∀ j, programs (i + 1 + j) = none → xs'[j]? = xs[j]?) (j : Nat)
    (hj : programs (i + j) = none) : (x' :: xs')[j]? = (x :: xs)[j]? := by
  cases j with
  | zero => exact congrArg some (hx hj)
  | succ j =>
    refine hxs j ?_
    rwa [Nat.add_assoc, Nat.add_comm 1]

theorem Alike.cons {programs : Nat → Option Invocation} {i : Nat} {cs : Pipeline}
    {stage stage' : Stage} {stages stages' : List Stage} {made made' : Ready}
    {ready ready' : List Ready} {owed later : Writes} {aside rest : Bytes}
    (hfirst : StageAlike host ends shell (programs i) (i == 0) cs.isEmpty c stage stage' made made'
      owed aside)
    (h : Alike host ends shell programs (i + 1) cs stages stages' ready ready' later rest) :
    Alike host ends shell programs i (c :: cs) (stage :: stages) (stage' :: stages')
      (made :: ready) (made' :: ready') (owed ++ later) (aside ++ rest) := by
  obtain ⟨hstages, hstages', hready, hready'⟩ := h.empty
  have hlater : cs.isEmpty = true → later = [] := fun hcs => h.debt (List.isEmpty_iff.1 hcs)
  have howed : cs ≠ [] → owed = [] := fun hcs => hfirst.debt (List.isEmpty_eq_false_iff.2 hcs)
  refine ⟨⟨rfl, rfl, rfl, rfl⟩, fun hnil => absurd hnil (List.cons_ne_nil _ _), ?_, ?_, ?_⟩
  · intro s t o a ho hs
    obtain rfl := ho (List.cons_ne_nil _ _)
    obtain ⟨s₁, t₁, hl, hl', hone⟩ := hfirst.launched hs
    obtain ⟨s₂, t₂, hrest, hrest', htwo⟩ := h.launched howed hone
    refine ⟨s₂, t₂, ?_, ?_, ?_⟩
    · have hnext : launchStages host ends shell.workDir false cs s₁ = (stages, s₂) := hrest
      simp only [launchStages, hl, hnext]
    · simp only [launchReplaced, hl', hrest']
    · rwa [List.nil_append, ← List.append_assoc a]
  · intro s t o a ho hs
    obtain rfl := ho (List.cons_ne_nil _ _)
    -- Only the last stage may have debts at the endpoints, and nothing comes behind it.
    have hlast : cs.isEmpty = true → owed ++ later = owed := by
      intro hcs
      rw [hlater hcs, List.append_nil]
    have hmore : cs ≠ [] → owed ++ later = later := by
      intro hcs
      rw [howed hcs, List.nil_append]
    obtain ⟨s₁, t₁, hb, hb', hone⟩ := hfirst.built hlast hs
    obtain ⟨s₂, t₂, hrest, hrest', htwo⟩ := h.built hmore hone
    refine ⟨s₂, t₂, ?_, ?_, htwo⟩
    · simp only [runBuiltins_cons, hstages, hb, hrest]
    · simp only [runBuiltins_cons, hstages', hb', hrest']
  · intro piped s t a hs
    have hdebts : (a ++ (aside ++ rest)).Perm ((a ++ rest) ++ aside) := by
      rw [List.append_assoc]
      exact .append_left a List.perm_append_comm
    obtain ⟨entry, entry', left, s₁, t₁, hp, hp', hwait, hentry, hone⟩ :=
      hfirst.completed piped hlater (hs.perm hdebts)
    obtain ⟨done, done', s₂, t₂, hd, hd', hstatuses, hentries, htwo⟩ := h.completed left hone
    refine ⟨⟨entry :: done.stages⟩, ⟨entry' :: done'.stages⟩, s₂, t₂, ?_, ?_, ?_,
      same_cons hentry hentries, htwo⟩
    · simp only [complete_cons, hready, hp, hd]
    · simp only [complete_cons, hready', hp', hd']
    · simp only [Job.statuses, List.map_cons, hwait]
      exact congrArg _ hstatuses

/-- Programs that may stand in place of stages: each where a stage fails, for what it fails with. -/
def InPlace (host : Host) (shell : Shell) (p : Pipeline) (programs : Nat → Option Invocation) :
    Prop :=
  ∀ i program, programs i = some program → ∃ d, Fails host shell p i d ∧ StandsIn d program

theorem alike (host : Host) (ends : Endpoints) (shell : Shell)
    {programs : Nat → Option Invocation} (p : Pipeline) (i : Nat)
    (h : ∀ j c program, p[j]? = some c → programs (i + j) = some program →
      Builtin.named c.name = none ∧
        ∃ d, launch host shell.workDir (i + j == 0) c = .error d ∧ StandsIn d program) :
    ∃ stages stages' ready ready' owed aside,
      Alike host ends shell programs i p stages stages' ready ready' owed aside := by
  induction p generalizing i with
  | nil => exact ⟨_, _, _, _, _, _, alike_nil programs i⟩
  | cons c cs ih =>
    have hstage : ∃ stage stage' made made' owed aside, StageAlike host ends shell (programs i)
        (i == 0) cs.isEmpty c stage stage' made made' owed aside := by
      cases hprogram : programs i with
      | none =>
        obtain ⟨stage, made, hsame⟩ :=
          stageAlike_untouched host ends shell (i == 0) cs.isEmpty c
        exact ⟨_, _, _, _, _, _, hsame⟩
      | some program =>
        obtain ⟨hb, d, hl, hp⟩ := h 0 c program rfl hprogram
        obtain ⟨stage, stage', made, made', hreplaced⟩ := stageAlike_replaced hb hl hp
        exact ⟨_, _, _, _, _, _, hreplaced⟩
    have hrest := ih (i + 1) fun j c' program hj hprogram => by
      rw [Nat.add_assoc, Nat.add_comm 1] at hprogram ⊢
      exact h (j + 1) c' program hj hprogram
    obtain ⟨stage, stage', made, made', owed, aside, hfirst⟩ := hstage
    obtain ⟨stages, stages', ready, ready', later, rest, hlater⟩ := hrest
    exact ⟨_, _, _, _, _, _, .cons hfirst hlater⟩

end Passes

/-- Two executions that differ in nothing but the order in which errors have been inherited. -/
structure SameButOrder (done other : Execution) : Prop where
  result : done.result = other.result
  shell : done.shell = other.shell
  output : done.streams.output = other.streams.output
  errors : done.streams.errors = other.streams.errors
  input : done.streams.input = other.streams.input
  inherited : done.streams.inherited.Perm other.streams.inherited

section Replacing

variable {host : Host} {shell : Shell} {p : Pipeline} {programs : Nat → Option Invocation}

theorem getElem?_launchReplaced (ends : Endpoints) (workDir : String) (s : Streams) (k i : Nat) :
    (launchReplaced host ends workDir programs k p s).1[i]? = p[i]?.map fun c =>
      match programs (k + i) with
      | some program => .running program (if k + i == 0 then .endpoint else .pipe)
      | none => started host workDir (k + i == 0) c := by
  induction p generalizing s k i with
  | nil => rfl
  | cons c cs ih =>
    simp only [launchReplaced]
    cases i with
    | zero =>
      rw [List.getElem?_cons_zero, List.getElem?_cons_zero, Option.map_some, Nat.add_zero]
      cases hprogram : programs k with
      | some program => rfl
      | none => exact congrArg some (launchStage_started host ends workDir _ _ c s)
    | succ i =>
      rw [List.getElem?_cons_succ, List.getElem?_cons_succ, ih, Nat.add_assoc, Nat.add_comm 1]

/-- If every pipe has its reader, the job of a pipeline with programs in place of stages that fail
is that of the pipeline, but that they are waited for. -/
theorem finish_replaced (ends : Endpoints) (h : InPlace host shell p programs) (s : Streams) :
    let done := jobReached host ends shell p s
    let started := launchReplaced host ends shell.workDir programs 0 p s
    let other := finish host ends shell (reached ends) started.1 started.2
    done.1.statuses = other.1.statuses ∧
      (∀ j, programs j = none → other.1.stages[j]? = done.1.stages[j]?) ∧
      Owes ends [] [] done.2 other.2 := by
  intro done started other
  obtain ⟨stages, stages', ready, ready', owed, aside, halike⟩ :=
    alike host ends shell p 0 fun j c program hj hprogram => by
      obtain ⟨d, ⟨c', hc, hb, hd⟩, hp⟩ := h (0 + j) program hprogram
      rw [Nat.zero_add] at hc hd ⊢
      obtain rfl : c = c' := Option.some.inj (hj.symm.trans hc)
      exact ⟨hb, d, launch_error_iff.2 hd, hp⟩
  have hself : Owes ends [] [] s s :=
    ⟨rfl, (List.append_nil _).symm, (List.append_nil _).symm, List.append_nil _ ▸ .refl _⟩
  obtain ⟨s₁, t₁, hl, hl', hone⟩ := halike.launched (fun _ => rfl) hself
  obtain ⟨s₂, t₂, hb, hb', htwo⟩ := halike.built (fun _ => rfl) hone
  obtain ⟨j, j', s₃, t₃, hc, hc', hstatuses, hentries, hthree⟩ := halike.completed [] htwo
  have hdone : done = (j, s₃) := by
    have hlaunch : launchStages host ends shell.workDir true p s = (stages, s₁) := hl
    simp only [done, jobReached, finish, hlaunch, hb, hc]
  have hother : other = (j', t₃) := by
    simp only [other, started, finish, hl', hb', hc']
  rw [hdone, hother]
  refine ⟨hstatuses, ?_, hthree⟩
  intro j hj
  rw [← Nat.zero_add j] at hj
  exact hentries j hj

section Stages

variable (ends : Endpoints) (s : Streams) {j : Nat}

theorem getElem?_launchReplaced_none (hj : programs j = none) :
    (launchReplaced host ends shell.workDir programs 0 p s).1[j]? =
      (launchStages host ends shell.workDir true p s).1[j]? := by
  rw [getElem?_launchReplaced, getElem?_launchStages, Nat.zero_add]
  simp only [hj, Bool.true_and]

/-- A program in place of the next stage reads what a stage writes. -/
theorem dropped_launchReplaced (hj : programs (j + 1) ≠ none) :
    dropped (launchReplaced host ends shell.workDir programs 0 p s).1 j = false := by
  obtain ⟨program, hprogram⟩ := Option.ne_none_iff_exists'.1 hj
  rw [dropped, getElem?_launchReplaced, Nat.zero_add]
  cases p[j + 1]? with
  | none => rfl
  | some c => simp only [hprogram, Option.map_some]

/-- What is unread in both pipelines. -/
theorem lostStatus_launchReplaced (hj : programs j = none)
    (hread : Unread host shell p j → programs (j + 1) = none) :
    let stages := (launchStages host ends shell.workDir true p s).1
    let stages' := (launchReplaced host ends shell.workDir programs 0 p s).1
    lostStatus host shell (dropped stages') stages' j =
      lostStatus host shell (dropped stages) stages j := by
  intro stages stages'
  by_cases hnext : programs (j + 1) = none
  · have hsame : dropped stages' j = dropped stages j := by
      simp only [dropped, stages, stages', getElem?_launchReplaced_none ends s hnext]
    rw [lostStatus_dropped, lostStatus_dropped, hsame, getElem?_launchReplaced_none ends s hj]
  · have hkept : ¬ Unread host shell p j := fun h => hnext (hread h)
    rw [lostStatus_eq_none host ends shell hkept, lostStatus_dropped,
      dropped_launchReplaced ends s hnext]
    rfl

/-- What is unread in the first pipeline alone, and what is no builtin. -/
theorem lostStatus_launchReplaced_none
    (h : ¬ (programs j = none ∧ (Unread host shell p j → programs (j + 1) = none))) :
    let stages := (launchReplaced host ends shell.workDir programs 0 p s).1
    lostStatus host shell (dropped stages) stages j = none := by
  intro stages
  rw [lostStatus_dropped]
  cases hj : programs j with
  | none =>
    have hnext : programs (j + 1) ≠ none := fun hnext => h ⟨hj, fun _ => hnext⟩
    rw [dropped_launchReplaced ends s hnext]
    rfl
  | some program =>
    rw [getElem?_launchReplaced, Nat.zero_add, hj]
    cases p[j]? with
    | none => exact ite_self _
    | some c => exact ite_self _

end Stages

/-- Programs in place of stages that fail read what builtins write to them, which then fail nowhere.
Everything else is as it is without these programs. -/
theorem jobReplaced_eq (ends : Endpoints) (hp : p ≠ []) (h : InPlace host shell p programs)
    (s : Streams) :
    let done := job host ends p shell s
    let other := jobReplaced host ends programs p shell s
    FailedAt (fun j => Unread host shell p j ∧ programs (j + 1) ≠ none) done.1.statuses
        other.1.statuses ∧
      Status.ofStages done.1.statuses = Status.ofStages other.1.statuses ∧
      (∀ j, programs j = none → (Unread host shell p j → programs (j + 1) = none) →
        other.1.stages[j]? = done.1.stages[j]?) ∧
      Owes ends [] [] done.2 other.2 := by
  intro done other
  obtain ⟨hstatuses, hentries, howes⟩ := finish_replaced ends h s
  obtain ⟨hstreams, hstatus, hlost⟩ := finish_heard host ends shell
    (launchStages host ends shell.workDir true p s).1
    (launchStages host ends shell.workDir true p s).2
  obtain ⟨hstreams', hstatus', hlost'⟩ := finish_heard host ends shell
    (launchReplaced host ends shell.workDir programs 0 p s).1
    (launchReplaced host ends shell.workDir programs 0 p s).2
  have hsame : ∀ j, programs j = none → (Unread host shell p j → programs (j + 1) = none) →
      other.1.stages[j]? = done.1.stages[j]? := by
    intro j hj hread
    refine (hlost' j).trans (Eq.trans ?_ (hlost j).symm)
    rw [lostStatus_launchReplaced ends s hj hread, hentries j hj]
    rfl
  refine ⟨?_, hstatus.trans ((congrArg Status.ofStages hstatuses).trans hstatus'.symm), hsame,
    hstreams ▸ hstreams' ▸ howes⟩
  intro j
  by_cases hj : programs j = none ∧ (Unread host shell p j → programs (j + 1) = none)
  · refine Or.inl ?_
    simp only [Job.statuses, List.getElem?_map, hsame j hj.1 hj.2]
  · have hother : other.1.statuses[j]? = (jobReached host ends shell p s).1.statuses[j]? := by
      have hentry := hlost' j
      rw [lostStatus_launchReplaced_none ends s hj] at hentry
      rw [hstatuses, Job.statuses, List.getElem?_map, Job.statuses, List.getElem?_map]
      exact congrArg (Option.map (·.wait)) hentry
    rw [hother, (jobReached_runs host ends shell hp s).1]
    rcases job_statuses host ends shell hp s j with hequal | ⟨hunread, hone, hzero⟩
    · exact Or.inl hequal
    · refine Or.inr ⟨⟨hunread, ?_⟩, hone, hzero⟩
      intro hnext
      refine hj ⟨?_, fun _ => hnext⟩
      cases hprogram : programs j with
      | none => rfl
      | some program =>
        obtain ⟨d, ⟨c, hc, hb, -⟩, -⟩ := h j program hprogram
        exact absurd hb (hunread.named_ne_none hc)

end Replacing

/-- A pipeline with a program that cannot be started completes. Its stages are those of the same
pipeline with, in place of any of its failing stages, programs that do nothing but to report the
failure; what comes behind a failing stage finds its input at an end. Only a builtin that writes to
a failing stage fails where it does not fail writing to a program. -/
theorem run_replaced (host : Host) (ends : Endpoints) (shell : Shell) (p : Pipeline) (s : Streams)
    {i : Nat} {d : Diagnostic} (hfail : Fails host shell p i d) :
    let done := run host ends p shell s
    let statuses := (job host ends p shell s).1.wait.1
    let runs := stageRuns host shell ends.outputWorks true s.input p
    (∃ program, StandsIn d program) ∧
      done.result = .ok (Status.ofStages statuses) ∧ done.shell = shell ∧
      FailedAt (Unread host shell p) statuses (statusesOf runs) ∧ statuses[i]? = some d.status ∧
      (∀ next, p[i + 1]? = some next → runs[i + 1]? = some (stageRun host shell
        (decide (i + 2 < p.length) || ends.outputWorks) false next [])) ∧
      ∀ programs, InPlace host shell p programs →
        SameButOrder done (runReplaced host ends programs p shell s) ∧
          FailedAt (fun j => Unread host shell p j ∧ programs (j + 1) ≠ none) statuses
            (jobReplaced host ends programs p shell s).1.wait.1 ∧
          ∀ j, programs j = none →
            (launchReplaced host ends shell.workDir programs 0 p s).1[j]? =
                (launchStages host ends shell.workDir true p s).1[j]? ∧
              ((Unread host shell p j → programs (j + 1) = none) →
                (jobReplaced host ends programs p shell s).1.stages[j]? =
                  (job host ends p shell s).1.stages[j]?) := by
  intro done statuses runs
  obtain ⟨hp, hl⟩ := hfail.staged
  obtain ⟨c, hc, hb, hd⟩ := hfail
  have hstatuses : FailedAt (Unread host shell p) statuses (statusesOf runs) :=
    job_statuses host ends shell hp s
  obtain ⟨hresult, hshell, -, -⟩ := run_runs host ends shell hp hl s
  have hend : done.result = .ok (Status.ofStages statuses) :=
    hresult.trans (congrArg Except.ok (job_runs host ends shell hp s).1.symm)
  have hrun : runs[i]? = some { rest := givenAt runs s.input i
                                writes := [(.errors, Utf8.ofString d.line)]
                                child := .ended d.status } := by
    rw [← hd.stageRun hb]
    exact getElem?_stageRuns host shell ends.outputWorks true s.input hc
  refine ⟨⟨standIn d, hd.standsIn⟩, hend, hshell, hstatuses, ?_, ?_, ?_⟩
  · have hideal : (statusesOf runs)[i]? = some d.status := by
      rw [statusesOf, List.getElem?_map, hrun]
      rfl
    rcases hstatuses i with hsame | ⟨hunread, -⟩
    · exact hsame.trans hideal
    · exact absurd hb (hunread.named_ne_none hc)
  · intro next hnext
    have hafter := getElem?_stageRuns host shell ends.outputWorks true s.input hnext
    rw [givenAt, hrun] at hafter
    exact hafter
  · intro programs hprograms
    obtain ⟨hsame, hstatus, hothers, howes⟩ := jobReplaced_eq ends hp hprograms s
    have hstreams : done.streams = (job host ends p shell s).2 := run_streams host ends shell hl s
    have hother : done.result = (runReplaced host ends programs p shell s).result :=
      hend.trans (congrArg Except.ok hstatus)
    refine ⟨⟨hother, hshell, ?_, ?_, ?_, ?_⟩, hsame, ?_⟩
    · rw [hstreams, howes.output]
      exact List.append_nil _
    · rw [hstreams, howes.errors]
      exact List.append_nil _
    · rw [hstreams, howes.input]
      rfl
    · rw [hstreams]
      exact List.append_nil (jobReplaced host ends programs p shell s).2.inherited ▸ howes.inherited
    · intro j hj
      exact ⟨getElem?_launchReplaced_none ends s hj, hothers j hj⟩

/-- Two programs of which one cannot be started. -/
def oneBroken : Host :=
  { tree := { entries := [
      (["count"], .program [.count, .exit 3]),
      (["broken"], .file (Utf8.ofString "no script") true)] } }

/-- Three programs that fail, each for another reason, and what counts their output. -/
def failing : Pipeline :=
  [{ name := "/count", input := some "/none" }, { name := "/count" }, { name := "/broken" },
    { name := "/count" }, { name := "/none" }]

/-- What reports the failures of the first and of the last of them. -/
def reports : Nat → Option Invocation
  | 0 => some (standIn ⟨"/none: No such file or directory (os error 2)\n", 1⟩)
  | 4 => some (standIn ⟨"command not found: /none\n", 127⟩)
  | _ => none

theorem fails_failing :
    Fails oneBroken { workDir := "/", home := "/" } failing 0
        ⟨"/none: No such file or directory (os error 2)\n", 1⟩ ∧
      Fails oneBroken { workDir := "/", home := "/" } failing 2
        ⟨"/broken: Exec format error (os error 8)\n", 127⟩ ∧
      Fails oneBroken { workDir := "/", home := "/" } failing 4
        ⟨"command not found: /none\n", 127⟩ := by
  refine ⟨⟨_, rfl, by decide, launch_error_iff.1 ?_⟩, ⟨_, rfl, by decide, launch_error_iff.1 ?_⟩,
    ⟨_, rfl, by decide, launch_error_iff.1 ?_⟩⟩ <;> rfl

theorem run_replaced_reports :
    Fails oneBroken { workDir := "/", home := "/" } failing 2
        ⟨"/broken: Exec format error (os error 8)\n", 127⟩ ∧
      InPlace oneBroken { workDir := "/", home := "/" } failing reports ∧
      (job oneBroken {} failing { workDir := "/", home := "/" } {}).1.wait.1 =
        [1, 3, 127, 3, 127] ∧
      (runReplaced oneBroken {} reports failing { workDir := "/", home := "/" } {}).result =
        .ok (.exited 127) ∧
      (runReplaced oneBroken {} reports failing { workDir := "/", home := "/" } {}).streams.errors =
        Utf8.ofString "command not found: /none\n" := by
  obtain ⟨hfirst, hmiddle, hlast⟩ := fails_failing
  have hreports : InPlace oneBroken { workDir := "/", home := "/" } failing reports := by
    intro i program h
    match i, h with
    | 0, h =>
      obtain rfl := Option.some.inj h
      exact hfirst.standIn
    | 4, h =>
      obtain rfl := Option.some.inj h
      exact hlast.standIn
  obtain ⟨-, -, -, -, -, -, hreplaced⟩ :=
    run_replaced oneBroken {} { workDir := "/", home := "/" } failing {} hmiddle
  obtain ⟨⟨hresult, -, -, herrors, -, -⟩, -, -⟩ := hreplaced reports hreports
  refine ⟨hmiddle, hreports, by decide, ?_, ?_⟩
  · rw [← hresult]
    decide
  · rw [← herrors]
    decide

end Execution
end PipeShell
