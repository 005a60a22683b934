import PipeShell.Proofs.Service.Transcript

/-! Lines whose programs leave the connection alone. Such a line is answered by the rules whatever
has arrived behind it, and every list of requests has a transcript. -/
namespace PipeShell.Session

/-- Whatever the connection holds, the programs of a line take nothing of it. -/
def Unread (host : Host) (shell : Shell) (line : String) : Prop :=
  ∀ p, Pipeline.read line = .ok (some p) → ∀ input,
    (Execution.run host endpoints p shell { input }).streams.input = input

/-- No program of the lines reads the connection, up to the line that ends the session. -/
def Quiet (host : Host) : Shell → List String → Prop
  | _, [] => True
  | shell, line :: lines => Unread host shell line ∧
      ∀ body later, Answered host shell (.command line) body none later → Quiet host later lines

variable {host : Host} {shell : Shell} {line : String}

/-- A lone builtin reads nothing. -/
theorem unread_of_lone {c : Command} {b : Builtin} (h : Pipeline.read line = .ok (some [c]))
    (hb : Builtin.named c.name = some b) : Unread host shell line := by
  intro p hp input
  obtain rfl : [c] = p := by simpa [h] using hp
  rw [Execution.run_lone host endpoints shell { input } hb, Execution.runLone_input]

theorem answer_unread (h : Unread host shell line) (source : Reads) :
    (answer host shell source (.command line)).source.bytes = source.bytes := by
  simp only [answer, answerLine]
  split
  · case h_1 p hr =>
    simp only [execute, h p hr source.bytes, Nat.sub_self, Reads.bytes_skip, List.drop_zero]
  · rfl
  · rfl

end PipeShell.Session
