/-!
Waiting for the stages of a pipeline. Each child is waited for by itself, so the order in which
children end does not matter.
-/
namespace PipeShell

/-- What waiting for a child may report. -/
inductive WaitStatus
  | exited (code : Int)
  | signaled (signal : Nat)
  | stopped (signal : Nat)
  | continued
  | stillAlive
deriving DecidableEq, Repr

/-- What an operating system may report: exit codes are a byte, signals are numbered up to 64. -/
def WaitStatus.Possible : WaitStatus → Prop
  | .exited code => 0 ≤ code ∧ code ≤ 255
  | .signaled signal => 1 ≤ signal ∧ signal ≤ 64
  | _ => True

/-- The status of a child that has ended. -/
def WaitStatus.code? : WaitStatus → Option Int
  | .exited code => some code
  | .signaled signal => some (128 + signal)
  | _ => none

/-- A running child, by the reports that waiting for it gives in turn; after the last one waiting
fails. -/
structure Child where
  reports : List WaitStatus
deriving DecidableEq, Repr

/-- The status of a stage that could not be started or can no longer be waited for. -/
def launchFailure : Int := 127

/-- Waits until a report says that the child has ended. -/
def Child.wait (c : Child) : Int := (c.reports.findSome? (·.code?)).getD launchFailure

namespace Job

/-- A stage of a job: a child to wait for, or a status that is known. -/
inductive Stage
  | running (child : Child)
  | done (status : Int)
deriving DecidableEq, Repr

namespace Stage

def wait : Stage → Int
  | .running child => child.wait
  | .done status => status

def isRunning : Stage → Bool
  | .running _ => true
  | .done _ => false

end Stage
end Job

/-- The stages of one pipeline, in order. -/
structure Job where
  stages : List Job.Stage := []
deriving DecidableEq, Repr

namespace Job

def statuses (j : Job) : List Int := j.stages.map (·.wait)

/-- The statuses in stage order, and the job with every stage finished. -/
def wait (j : Job) : List Int × Job := (j.statuses, ⟨j.statuses.map .done⟩)

def runningCount (j : Job) : Nat := j.stages.countP (·.isRunning)

end Job
end PipeShell
