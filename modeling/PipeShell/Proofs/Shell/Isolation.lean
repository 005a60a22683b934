import Mathlib.Data.List.Perm.Basic
import PipeShell.Proofs.Shell.Composition

/-! Where the bytes of a pipeline go. The endpoints get what its last stage writes, the inherited
errors what all other stages complain of, and only the first stage takes anything of the input. -/
namespace PipeShell

/-- A command without the file that its input is read from. -/
def Command.withoutInput (c : Command) : Command := { c with input := none }

namespace Streams

variable (ends : Endpoints) (bytes : Bytes) (s : Streams)

theorem writeOutput_inherited : ((s.writeOutput ends bytes).getD s).inherited = s.inherited := by
  simp only [writeOutput]
  split <;> rfl

theorem writeErrors_inherited : ((s.writeErrors ends bytes).getD s).inherited = s.inherited := by
  simp only [writeErrors]
  split
  · rfl
  · exact writeOutput_inherited ends bytes s
  · rfl

end Streams

namespace Execution

/-- What the last of the runs writes to its errors. -/
def lastErrors (runs : List Run) : Bytes := (runs.getLast?.map (·.written .errors)).getD []

/-- What the runs before the last write to their errors. -/
def asides (runs : List Run) : List Bytes := runs.dropLast.map (·.written .errors)

variable (host : Host) (ends : Endpoints) (shell : Shell)

theorem arrivingErrors_lastWrites (runs : List Run) :
    arrivingErrors {} (lastWrites runs) = lastErrors runs := by
  have hown : ∀ writes : Writes, arrivingErrors {} writes =
      (writes.filter (·.1 == .errors)).flatMap (·.2) := by
    intro writes
    induction writes with
    | nil => rfl
    | cons w writes ih =>
      obtain ⟨channel, bytes⟩ := w
      have hcons : arrivingErrors {} ((channel, bytes) :: writes) =
          arrivingErrors {} [(channel, bytes)] ++ arrivingErrors {} writes :=
        arrivingErrors_append {} [(channel, bytes)] writes
      rw [hcons, ih]
      cases channel <;> simp [arrivingErrors]
  rw [hown, lastWrites, lastErrors]
  cases runs.getLast? <;> rfl

theorem asides_cons (run : Run) {runs : List Run} (h : runs ≠ []) :
    asides (run :: runs) = run.written .errors :: asides runs := by
  rw [asides, List.dropLast_cons_of_ne_nil h]
  rfl

theorem deliver_inherited (writes : Writes) (s : Streams) :
    (deliver ends writes s).inherited = s.inherited := by
  induction writes generalizing s with
  | nil => rfl
  | cons w writes ih =>
    obtain ⟨channel, bytes⟩ := w
    rw [deliver, List.foldl_cons]
    refine (ih _).trans ?_
    cases channel with
    | output => exact Streams.writeOutput_inherited ends bytes s
    | errors => exact Streams.writeErrors_inherited ends bytes s

/-- The inherited errors through the three passes over a pipeline: those of `early` come when the
programs are started, the others when the stages come to their ends. -/
structure Overheard (isFirst : Bool) (p : Pipeline) (stages : List Stage) (ready : List Ready)
    (early : List Bytes) : Prop where
  launched : ∀ s, ∃ t, launchStages host ends shell.workDir isFirst p s = (stages, t) ∧
    t.inherited = s.inherited ++ early.flatten
  built : ∀ s, ∃ t, runBuiltins host ends shell (reached ends) stages s = (ready, t) ∧
    t.inherited = s.inherited
  completed : ∀ piped given s, Given isFirst piped given s → ∃ late,
    (complete ends piped ready s).2.inherited = s.inherited ++ late.flatten ∧
      (early ++ late).Perm (asides (stageRuns host shell ends.outputWorks isFirst given p))

/-- The last stage writes nothing to the inherited errors, whether the endpoints work or not. -/
theorem overheard_last (isFirst : Bool) (c : Command) :
    ∃ stages ready, Overheard host ends shell isFirst [c] stages ready [] := by
  have hnone : ∀ s t : Streams, t.inherited = s.inherited →
      t.inherited = s.inherited ++ ([] : List Bytes).flatten := by
    intro s t h
    rw [h]
    exact (List.append_nil _).symm
  rcases stage_cases host ends shell isFirst c with
    ⟨b, -, hlaunch, -⟩ | ⟨d, -, hlaunch, -⟩ | ⟨program, input, hi, hlaunch, -⟩
  · let result := b.run host c.arguments .pipeline ends.outputWorks shell
    refine ⟨[.deferred b c.arguments], [.finished result.outcome.status []], ?_, ?_, ?_⟩
    · intro s
      refine ⟨s, ?_, hnone s s rfl⟩
      simp only [launchStages, hlaunch]
    · intro s
      exact ⟨_, rfl, Streams.writeOutput_inherited ends _ s⟩
    · intro piped given s _
      exact ⟨[], hnone s s rfl, .refl _⟩
  · refine ⟨[.failed d.status], [.finished d.status []], ?_, ?_, ?_⟩
    · intro s
      refine ⟨report ends true d.line s, ?_, hnone s _ (Streams.writeErrors_inherited ends _ s)⟩
      simp only [launchStages, hlaunch]
      rfl
    · intro s
      exact ⟨s, rfl, rfl⟩
    · intro piped given s _
      exact ⟨[], hnone s s rfl, .refl _⟩
  · refine ⟨[.running program input], [.running program input], ?_, ?_, ?_⟩
    · intro s
      refine ⟨s, ?_, hnone s s rfl⟩
      simp only [launchStages, hlaunch]
    · intro s
      exact ⟨s, rfl, rfl⟩
    · intro piped given s _
      refine ⟨[], hnone s _ ?_, .refl _⟩
      simp only [complete, runProgram, List.isEmpty_nil, if_true]
      split <;> exact deliver_inherited ends _ _

/-- A stage before others adds its own errors once, early or late. -/
theorem overheard_cons (isFirst : Bool) (c : Command) {d : Command} {ds : Pipeline}
    {stages : List Stage} {ready : List Ready} {early : List Bytes}
    (h : Overheard host ends shell false (d :: ds) stages ready early) :
    ∃ stages ready early, Overheard host ends shell isFirst (c :: d :: ds) stages ready early := by
  obtain ⟨stage, made, first, hmiddle⟩ := middle_stage host ends shell isFirst c
  obtain ⟨next, rest, rfl⟩ : ∃ t ts, stages = t :: ts := by
    obtain ⟨t, hl, -⟩ := h.launched {}
    exact ⟨_, _, (congrArg Prod.fst hl).symm⟩
  obtain ⟨r, rs, rfl⟩ : ∃ r rs, ready = r :: rs := by
    obtain ⟨t, hb, -⟩ := h.built {}
    exact ⟨_, _, (congrArg Prod.fst hb).symm⟩
  refine ⟨stage :: next :: rest, made :: r :: rs, first ++ early, ?_, ?_, ?_⟩
  · intro s
    obtain ⟨between, hl, -, hfirst⟩ := hmiddle.launched s
    obtain ⟨t, hrest, hearly⟩ := h.launched between
    refine ⟨t, ?_, ?_⟩
    · rw [launchStages, List.isEmpty_cons, hl]
      simp only [hrest]
    · rw [hearly, hfirst, List.flatten_append, List.append_assoc]
  · intro s
    obtain ⟨t, hb, hkept⟩ := h.built s
    refine ⟨t, ?_, hkept⟩
    rw [hmiddle.built, hb]
  · intro piped given s hg
    obtain ⟨entry, between, own, hc, -, -, -, hown, herrors⟩ :=
      hmiddle.completed piped given s hg
    obtain ⟨late, hlate, hperm⟩ := h.completed _ _ between rfl
    refine ⟨own ++ late, ?_, ?_⟩
    · rw [hc, hlate, hown, List.flatten_append, List.append_assoc]
    · have hne : stageRuns host shell ends.outputWorks false
          ((stageRun host shell true isFirst c given).written .output) (d :: ds) ≠ [] :=
        List.cons_ne_nil _ _
      have hswap : (first ++ early ++ (own ++ late)).Perm (first ++ own ++ (early ++ late)) := by
        simp only [List.append_assoc]
        refine .append_left first ?_
        rw [← List.append_assoc, ← List.append_assoc]
        exact .append_right late List.perm_append_comm
      rw [stageRuns, List.isEmpty_cons, Bool.not_false, Bool.true_or, asides_cons _ hne]
      rw [herrors] at hswap
      exact hswap.trans (.cons _ hperm)

theorem overheard (isFirst : Bool) (c : Command) (cs : Pipeline) :
    ∃ stages ready early, Overheard host ends shell isFirst (c :: cs) stages ready early := by
  induction cs generalizing isFirst c with
  | nil =>
    obtain ⟨stages, ready, h⟩ := overheard_last host ends shell isFirst c
    exact ⟨stages, ready, [], h⟩
  | cons d ds ih =>
    obtain ⟨stages, ready, early, h⟩ := ih false d
    exact overheard_cons host ends shell isFirst c h

/-- Every stage but the last has its errors inherited, each of them once. -/
theorem job_inherited (p : Pipeline) (s : Streams) :
    ∃ pieces : List Bytes,
      pieces.Perm (asides (stageRuns host shell ends.outputWorks true s.input p)) ∧
      (job host ends p shell s).2.inherited = s.inherited ++ pieces.flatten := by
  rw [(job_heard host ends shell p s).1]
  cases p with
  | nil => exact ⟨[], .refl _, (List.append_nil _).symm⟩
  | cons c cs =>
    obtain ⟨stages, ready, early, h⟩ := overheard host ends shell true c cs
    obtain ⟨launched, hl, hearly⟩ := h.launched s
    obtain ⟨built, hb, hkept⟩ := h.built launched
    have hinput : built.input = s.input := by
      have hlaunch := launchStages_input host ends s shell.workDir true (c :: cs)
      have hbuild := runBuiltins_input host ends shell launched (reached ends) stages
      rw [hl] at hlaunch
      rw [hb] at hbuild
      exact hbuild.trans hlaunch
    obtain ⟨late, hlate, hperm⟩ := h.completed [] s.input built hinput
    refine ⟨early ++ late, hperm, ?_⟩
    simp only [jobReached, finish, hl, hb, hlate, hkept, hearly, List.flatten_append,
      List.append_assoc]

section Redirection

variable (workDir : String) (isLast : Bool)

theorem launchStage_withoutInput (c : Command) (s : Streams) :
    launchStage host ends workDir false isLast c.withoutInput s =
      launchStage host ends workDir false isLast c s := by
  simp only [launchStage, launch, Command.withoutInput, openInput, Bool.not_false, if_true]

theorem launchStages_withoutInput (p : Pipeline) (s : Streams) :
    launchStages host ends workDir false (p.map Command.withoutInput) s =
      launchStages host ends workDir false p s := by
  induction p generalizing s with
  | nil => rfl
  | cons c cs ih =>
    simp only [List.map_cons, launchStages, List.isEmpty_map, launchStage_withoutInput, ih]

/-- Input files behind the first stage make no difference. -/
theorem run_withoutInput (c : Command) (cs : Pipeline) (s : Streams) :
    run host ends (c :: cs.map Command.withoutInput) shell s = run host ends (c :: cs) shell s := by
  have hjob : job host ends (c :: cs.map Command.withoutInput) shell s =
      job host ends (c :: cs) shell s := by
    simp only [job, launchStages, List.isEmpty_map, launchStages_withoutInput]
  cases cs with
  | nil => rfl
  | cons d ds =>
    change runStages host ends (c :: (d :: ds).map Command.withoutInput) shell s =
      runStages host ends (c :: d :: ds) shell s
    simp only [runStages, hjob]

end Redirection

section FirstStage

variable {host shell} {works : Bool} {c : Command} {program : Invocation} {given : Bytes}

theorem openInput_file {workDir : String} {input : StageInput} (hc : c.input ≠ none)
    (h : openInput host workDir true c = .ok input) : ∃ content, input = .file content := by
  simp only [openInput, Bool.not_true, Bool.false_eq_true, if_false] at h
  split at h
  · case h_1 hnone => exact absurd hnone hc
  · split at h
    · case h_1 content _ => exact ⟨content, (Except.ok.inj h).symm⟩
    · cases h

theorem launch_file {workDir : String} {input : StageInput} (hc : c.input ≠ none)
    (h : launch host workDir true c = .ok (program, input)) : ∃ content, input = .file content :=
  openInput_file hc (launch_ok_iff.1 h).1

/-- A first stage that reads a file, is a builtin or is not started leaves what it is given. -/
theorem rest_of_unread (h : c.input ≠ none ∨ (∃ b, Builtin.named c.name = some b) ∨
      ∃ d, launch host shell.workDir true c = .error d) :
    (stageRun host shell works true c given).rest = given := by
  simp only [stageRun]
  cases hb : Builtin.named c.name with
  | some b => rfl
  | none =>
    cases hl : launch host shell.workDir true c with
    | error d => rfl
    | ok started =>
      obtain ⟨program, input⟩ := started
      rcases h with hc | ⟨b, hnamed⟩ | ⟨d, hfailed⟩
      · obtain ⟨content, rfl⟩ := launch_file hc hl
        rfl
      · rw [hb] at hnamed
        cases hnamed
      · rw [hl] at hfailed
        cases hfailed

theorem stageRun_started {isFirst : Bool} {input : StageInput} (hb : Builtin.named c.name = none)
    (hl : launch host shell.workDir isFirst c = .ok (program, input)) :
    stageRun host shell works isFirst c given = startedRun program given input := by
  simp only [stageRun, hb, hl]

end FirstStage

/-- What a pipeline does to the streams, told by the runs of its stages. -/
structure Isolated (p : Pipeline) (runs : List Run) (before after : Streams) : Prop where
  length : runs.length = p.length
  /-- Each stage is given what the endpoint holds or what the stage before it has written. -/
  stages : ∀ i c, p[i]? = some c →
    runs[i]? = some (stageRun host shell true (i == 0) c (givenAt runs before.input i))
  /-- Behind the first stage every program reads the pipe, whatever file its command names. -/
  piped : ∀ i c program input, p[i + 1]? = some c → Builtin.named c.name = none →
    launch host shell.workDir false c = .ok (program, input) → ∃ earlier,
      runs[i]? = some earlier ∧ runs[i + 1]? = some (program.run (earlier.written .output))
  output : after.output = before.output ++ lastOutput runs
  errors : after.errors = before.errors ++ lastErrors runs
  /-- The errors of the other stages come in some order, none twice and none left out. -/
  inherited : ∃ pieces : List Bytes, pieces.Perm (asides runs) ∧
    after.inherited = before.inherited ++ pieces.flatten
  input : after.input = (runs.head?.map (·.rest)).getD before.input
  reads : ∀ c program, p.head? = some c → Builtin.named c.name = none →
    launch host shell.workDir true c = .ok (program, .endpoint) →
      after.input = (program.run before.input).rest
  unread : ∀ c, p.head? = some c →
    (c.input ≠ none ∨ (∃ b, Builtin.named c.name = some b) ∨
      ∃ d, launch host shell.workDir true c = .error d) → after.input = before.input

theorem run_streams {p : Pipeline} (hl : ¬ Lone p) (s : Streams) :
    (run host ends p shell s).streams = (job host ends p shell s).2 := by
  rcases run_cases host ends shell p with rfl | hlone | hstages
  · rfl
  · exact absurd hlone hl
  · rw [hstages]
    rfl

theorem isolated_job (p : Pipeline) (s : Streams) :
    Isolated host shell p (stageRuns host shell true true s.input p) s
      (job host {} p shell s).2 := by
  have hstages : ∀ i c, p[i]? = some c →
      (stageRuns host shell true true s.input p)[i]? = some (stageRun host shell true (i == 0) c
        (givenAt (stageRuns host shell true true s.input p) s.input i)) := by
    intro i c hi
    simpa using getElem?_stageRuns host shell true true s.input hi
  have hinput : (job host {} p shell s).2.input =
      ((stageRuns host shell true true s.input p).head?.map (·.rest)).getD s.input := by
    by_cases hp : p = []
    · subst hp
      rfl
    · exact (job_runs host {} shell hp s).2.1
  have hdel : Delivered {} (lastWrites (stageRuns host shell true true s.input p)) s
      (job host {} p shell s).2 := by
    by_cases hp : p = []
    · subst hp
      exact .nothing rfl rfl
    · exact (job_runs host {} shell hp s).2.2
  have hfirst : ∀ c, p.head? = some c → (job host {} p shell s).2.input =
      (stageRun host shell true true c s.input).rest := by
    intro c hc
    have hrun := hstages 0 c (by rw [← List.head?_eq_getElem?]; exact hc)
    rw [hinput, List.head?_eq_getElem?, hrun]
    rfl
  refine ⟨length_stageRuns host shell true true s.input p, hstages, ?_, ?_, ?_,
    job_inherited host {} shell p s, hinput, ?_, ?_⟩
  · intro i c program input hi hb hlaunch
    obtain rfl : input = .pipe := (launch_pipe host hlaunch).2 rfl
    have hlt : i < (stageRuns host shell true true s.input p).length := by
      rw [length_stageRuns]
      exact Nat.lt_of_succ_lt (List.getElem?_eq_some_iff.1 hi).1
    refine ⟨_, List.getElem?_eq_getElem hlt, ?_⟩
    rw [hstages (i + 1) c hi, givenAt, List.getElem?_eq_getElem hlt]
    exact congrArg some (stageRun_started hb hlaunch)
  · rw [hdel.output, arrivingOutput_lastWrites rfl (by decide)]
  · rw [hdel.errors, arrivingErrors_lastWrites]
  · intro c program hc hb hlaunch
    rw [hfirst c hc, stageRun_started hb hlaunch]
    rfl
  · intro c hc hunread
    rw [hfirst c hc, rest_of_unread hunread]

/-- A pipeline that is no lone builtin, between endpoints that work and are apart: its streams are
those of its stages, and input files behind the first stage make no difference. -/
theorem run_isolated (host : Host) (shell : Shell) {p : Pipeline} (hl : ¬ Lone p) (s : Streams) :
    Isolated host shell p (stageRuns host shell true true s.input p) s
        (run host {} p shell s).streams ∧
      ∀ c cs, p = c :: cs →
        run host {} (c :: cs.map Command.withoutInput) shell s = run host {} p shell s := by
  constructor
  · rw [run_streams host {} shell hl]
    exact isolated_job host shell p s
  · rintro c cs rfl
    exact run_withoutInput host {} shell c cs s

/-- A program that complains, one that is not there, one that copies, and the first one again. -/
def complaining : Pipeline :=
  [{ name := "/say" }, { name := "/none", input := some "/nowhere" },
    { name := "/quit", input := some "/nowhere" }, { name := "/say" }]

theorem run_isolated_complaining :
    ¬ Lone complaining ∧
      (run threePrograms {} complaining { workDir := "/", home := "/" } {}).streams.inherited =
        Utf8.ofString "command not found: /none\n" ++ [0x21] ∧
      ∃ pieces : List Bytes,
        pieces.Perm [[0x21], Utf8.ofString "command not found: /none\n", []] ∧
        (run threePrograms {} complaining { workDir := "/", home := "/" } {}).streams.inherited =
          pieces.flatten := by
  have hl : ¬ Lone complaining := by
    rintro ⟨c, b, h, -⟩
    cases h
  obtain ⟨hisolated, -⟩ := run_isolated threePrograms { workDir := "/", home := "/" } hl {}
  refine ⟨hl, by decide, ?_⟩
  obtain ⟨pieces, hperm, hinherited⟩ := hisolated.inherited
  have hasides : asides (stageRuns threePrograms { workDir := "/", home := "/" } true true []
      complaining) = [[0x21], Utf8.ofString "command not found: /none\n", []] := by decide
  exact ⟨pieces, hasides ▸ hperm, hinherited⟩

end Execution
end PipeShell
