import PipeShell.Shell.Execution

/-! Starting a program: what is there when it starts, and what is complained of when it does not. -/
namespace PipeShell.Execution

/-- Why a program is not started, by the three moments at which its start may fail, each of which
comes only if those before it have not. -/
inductive Diagnosed (host : Host) (workDir : String) (isFirst : Bool) (c : Command) :
    Diagnostic → Prop
  | notFound (hl : host.lookup c.name workDir = none) :
      Diagnosed host workDir isFirst c ⟨"command not found: " ++ c.name ++ "\n", 127⟩
  | unopened {path file : String} {e : SystemError} (hl : host.lookup c.name workDir = some path)
      (hfirst : isFirst = true) (hc : c.input = some file)
      (ho : host.openFile (PathText.join workDir file) = .error e) :
      Diagnosed host workDir isFirst c ⟨file ++ ": " ++ e.message ++ "\n", 1⟩
  | notStarted {path : String} {e : SystemError} (hl : host.lookup c.name workDir = some path)
      (ho : isFirst = true → ∀ file, c.input = some file →
        ∃ content, host.openFile (PathText.join workDir file) = .ok content)
      (hs : host.start path c.arguments workDir = .error e) :
      Diagnosed host workDir isFirst c ⟨c.name ++ ": " ++ e.message ++ "\n", 127⟩

/-- The stage at a place is a program that cannot be started, for this reason. -/
def Fails (host : Host) (shell : Shell) (p : Pipeline) (i : Nat) (d : Diagnostic) : Prop :=
  ∃ c, p[i]? = some c ∧ Builtin.named c.name = none ∧
    Diagnosed host shell.workDir (i == 0) c d

variable {host : Host} {workDir : String} {isFirst : Bool} {c : Command} {d : Diagnostic}
  {input : StageInput} {program : Invocation}

theorem Diagnosed.status (h : Diagnosed host workDir isFirst c d) :
    d.status = 1 ∨ d.status = 127 := by
  cases h with
  | notFound => exact Or.inr rfl
  | unopened => exact Or.inl rfl
  | notStarted => exact Or.inr rfl

theorem openInput_error_iff : openInput host workDir isFirst c = .error d ↔
    isFirst = true ∧ ∃ file e, c.input = some file ∧
      host.openFile (PathText.join workDir file) = .error e ∧
      ⟨file ++ ": " ++ e.message ++ "\n", 1⟩ = d := by
  cases isFirst with
  | false => simp [openInput]
  | true =>
    cases hc : c.input with
    | none => simp [openInput, hc]
    | some file =>
      cases ho : host.openFile (PathText.join workDir file) with
      | ok content => simp [openInput, hc, ho]
      | error e => simp [openInput, hc, ho, inputFailure]

theorem launch_ok_iff : launch host workDir isFirst c = .ok (program, input) ↔
    openInput host workDir isFirst c = .ok input ∧
      ∃ path, host.lookup c.name workDir = some path ∧
        host.start path c.arguments workDir = .ok program := by
  simp only [launch]
  cases hl : host.lookup c.name workDir with
  | none => simp
  | some path =>
    cases ho : openInput host workDir isFirst c with
    | error d => simp [bind, Except.bind]
    | ok opened =>
      cases hs : host.start path c.arguments workDir with
      | error e => simp [bind, Except.bind, hs]
      | ok started => simp [bind, Except.bind, hs, and_comm]

theorem launch_error_iff :
    launch host workDir isFirst c = .error d ↔ Diagnosed host workDir isFirst c d := by
  constructor
  · intro h
    simp only [launch] at h
    split at h
    · case h_1 hl =>
      obtain rfl := Except.error.inj h
      exact .notFound hl
    · case h_2 path hl =>
      cases ho : openInput host workDir isFirst c with
      | error d' =>
        simp only [ho, bind, Except.bind] at h
        obtain rfl := Except.error.inj h
        obtain ⟨hfirst, file, e, hc, hopen, rfl⟩ := openInput_error_iff.1 ho
        exact .unopened hl hfirst hc hopen
      | ok input =>
        simp only [ho, bind, Except.bind] at h
        split at h
        · cases h
        · case h_2 e hs =>
          obtain rfl := Except.error.inj h
          refine .notStarted hl ?_ hs
          intro hfirst file hc
          cases hopen : host.openFile (PathText.join workDir file) with
          | ok content => exact ⟨content, rfl⟩
          | error e' =>
            have herror := openInput_error_iff.2 ⟨hfirst, file, e', hc, hopen, rfl⟩
            rw [ho] at herror
            cases herror
  · intro h
    cases h with
    | notFound hl => simp only [launch, hl, launchFailure]
    | unopened hl hfirst hc ho =>
      have herror := openInput_error_iff.2 ⟨hfirst, _, _, hc, ho, rfl⟩
      simp only [launch, hl, herror]
      rfl
    | notStarted hl ho hs =>
      cases hopen : openInput host workDir isFirst c with
      | error d =>
        obtain ⟨hfirst, file, e, hc, herror, -⟩ := openInput_error_iff.1 hopen
        obtain ⟨content, hok⟩ := ho hfirst file hc
        rw [herror] at hok
        cases hok
      | ok input =>
        simp only [launch, hl, hopen, hs]
        rfl

end PipeShell.Execution
