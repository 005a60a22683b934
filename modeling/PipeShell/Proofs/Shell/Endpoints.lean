import PipeShell.Proofs.Shell.StageRuns

/-! What a pipeline does whatever it is connected to. It comes to the same end with an error
endpoint of its own as with one that is shared, and on an input that it leaves alone it does what
it does without any. -/
namespace PipeShell.Execution

/-- All writes go to the output endpoint. -/
def shared : Endpoints := { errorsTo := .output }

theorem arrivingOutput_shared {writes : Writes} (h : arrivingErrors {} writes = []) :
    arrivingOutput {} writes = arrivingOutput shared writes := by
  induction writes with
  | nil => rfl
  | cons w writes ih =>
    obtain ⟨channel, bytes⟩ := w
    have herrors := arrivingErrors_append {} [(channel, bytes)] writes
    have hown := arrivingOutput_append {} [(channel, bytes)] writes
    have hshared := arrivingOutput_append shared [(channel, bytes)] writes
    rw [List.singleton_append] at herrors hown hshared
    rw [herrors] at h
    obtain ⟨hone, hrest⟩ := List.append_eq_nil_iff.1 h
    rw [hown, hshared, ih hrest]
    cases channel with
    | output => rfl
    | errors =>
      obtain rfl : bytes = [] := by simpa [arrivingErrors] using hone
      rfl

variable (host : Host) (shell : Shell)

theorem runLone_shared (b : Builtin) (c : Command) (input : Bytes) :
    let own := runLone host {} b c shell { input }
    let both := runLone host shared b c shell { input }
    own.result = both.result ∧ own.shell = both.shell ∧
      (own.streams.errors = [] → own.streams.output = both.streams.output) := by
  intro own both
  simp only [own, both, runLone]
  split
  · case h_1 line _ =>
    refine ⟨rfl, rfl, ?_⟩
    intro herrors
    have hline : Utf8.ofString line = [] := herrors
    simp [Streams.writeErrors, Streams.writeOutput, shared, hline]
  · exact ⟨rfl, rfl, fun _ => rfl⟩

/-- Sharing the error endpoint with the output changes neither the end of a pipeline nor the shell
nor what it reads, and its output only by its errors. -/
theorem run_shared (p : Pipeline) (input : Bytes) :
    let own := run host {} p shell { input }
    let both := run host shared p shell { input }
    own.result = both.result ∧ own.shell = both.shell ∧ own.streams.input = both.streams.input ∧
      (own.streams.errors = [] → own.streams.output = both.streams.output) := by
  by_cases hp : p = []
  · subst hp
    exact ⟨rfl, rfl, rfl, fun _ => rfl⟩
  by_cases hl : Lone p
  · obtain ⟨c, b, rfl, hb⟩ := hl
    obtain ⟨hresult, hshell, houtput⟩ := runLone_shared host shell b c input
    simp only [run_lone host _ shell _ hb, runLone_input]
    exact ⟨hresult, hshell, trivial, houtput⟩
  · obtain ⟨hresult, hshell, hinput, hdel⟩ := run_runs host {} shell hp hl { input }
    obtain ⟨hresult', hshell', hinput', hdel'⟩ := run_runs host shared shell hp hl { input }
    refine ⟨hresult.trans hresult'.symm, hshell.trans hshell'.symm, hinput.trans hinput'.symm, ?_⟩
    intro herrors
    rw [hdel.errors, List.nil_append] at herrors
    rw [hdel.output, hdel'.output]
    exact congrArg _ (arrivingOutput_shared herrors)

/-- A pipeline that leaves its input alone does the same without any. -/
theorem run_unread {ends : Endpoints} {p : Pipeline} {input : Bytes}
    (h : (run host ends p shell { input }).streams.input = input) :
    (run host ends p shell { input }).result = (run host ends p shell {}).result ∧
      (run host ends p shell { input }).shell = (run host ends p shell {}).shell ∧
      (run host ends p shell { input }).streams =
        (run host ends p shell {}).streams.withInput input := by
  have hidle := run_idle host ends shell { input } h
  have hempty : Streams.withInput [] { input } = {} := rfl
  rw [hempty] at hidle
  rw [hidle]
  refine ⟨rfl, rfl, ?_⟩
  have hself := Streams.withInput_self (run host ends p shell { input }).streams
  rw [h] at hself
  exact hself.symm

/-- A pipeline that leaves every input alone comes to the same on any two inputs, with its errors
apart as well as without. -/
theorem run_alike {p : Pipeline}
    (h : ∀ input, (run host shared p shell { input }).streams.input = input)
    (input input' : Bytes) :
    let own := run host {} p shell { input }
    let both := run host shared p shell { input := input' }
    own.result = both.result ∧ own.shell = both.shell ∧ own.streams.input = input ∧
      (own.streams.errors = [] → own.streams.output = both.streams.output) := by
  intro own both
  obtain ⟨hresult, hshell, hinput, houtput⟩ := run_shared host shell p input
  obtain ⟨hresult₁, hshell₁, hstreams₁⟩ := run_unread host shell (h input)
  obtain ⟨hresult₂, hshell₂, hstreams₂⟩ := run_unread host shell (h input')
  refine ⟨hresult.trans (hresult₁.trans hresult₂.symm), hshell.trans (hshell₁.trans hshell₂.symm),
    hinput.trans (h input), ?_⟩
  intro herrors
  have hsame : (run host shared p shell { input }).streams.output = both.streams.output := by
    rw [hstreams₁, hstreams₂]
    rfl
  exact (houtput herrors).trans hsame

end PipeShell.Execution
