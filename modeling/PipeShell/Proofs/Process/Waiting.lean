import Mathlib.Data.List.Basic
import PipeShell.Process.Program

/-! Waiting for children by their numbers: each running entry of a job is waited for in its turn and
becomes a finished one. The system that the children run on is a parameter, known by what a wait for
one of them may come to. -/
namespace PipeShell

theorem Job.runningCount_wait (j : Job) : j.wait.2.runningCount = 0 := by
  apply List.countP_eq_zero.2
  intro stage hstage
  obtain ⟨status, -, rfl⟩ := List.mem_map.1 hstage
  exact Bool.false_ne_true

theorem Job.wait_wait (j : Job) : j.wait.2.wait = j.wait := by
  have hstatuses : j.wait.2.statuses = j.statuses := by
    simp [wait, statuses, Stage.wait]
  rw [wait, hstatuses]
  rfl

namespace Waiting

/-- What one wait comes to. -/
inductive Reply
  | interrupted
  | reported (report : WaitStatus)
  | failed
deriving DecidableEq, Repr

section Replies

variable {σ : Type} (reports : Nat → σ → List WaitStatus) (room : σ → Nat)

/-- What one wait for a child may come to, and what it leaves to report. It is about this child
alone, and fails only when the child has nothing more to report. -/
inductive Replied (pid : Nat) (s : σ) : Reply × σ → Prop
  | failed {left : σ} (hnone : reports pid s = [])
      (hall : ∀ child, reports child left = reports child s) : Replied pid s (.failed, left)
  | interrupted {left : σ} (hroom : room left < room s)
      (hall : ∀ child, reports child left = reports child s) : Replied pid s (.interrupted, left)
  | reported {report : WaitStatus} {left : σ} (hroom : room left < room s)
      (hown : reports pid s = report :: reports pid left)
      (hothers : ∀ child ≠ pid, reports child left = reports child s) :
      Replied pid s (.reported report, left)

end Replies

/-- A system with children to wait for. -/
structure System (σ : Type) where
  wait : (pid : Nat) → σ → Reply × σ
  /-- What a child has still to report that a wait can tell, the earliest first. -/
  reports : (pid : Nat) → σ → List WaitStatus
  /-- How many waits may still come to anything but a failure. -/
  room : σ → Nat
  replied : ∀ pid s, Replied reports room pid s (wait pid s)

/-- A wait that was made. -/
structure Wait where
  pid : Nat
  reply : Reply
deriving DecidableEq, Repr

/-- Whether a wait has reported the end of a child, which is gone then. -/
def Wait.reaps (pid : Nat) (wait : Wait) : Bool :=
  wait.pid == pid && match wait.reply with
    | .reported report => report.code?.isSome
    | _ => false

structure Waited (σ : Type) where
  status : Int
  /-- Every wait, the first one first. -/
  waits : List Wait
  left : σ

def Waited.behind {σ : Type} (wait : Wait) (waited : Waited σ) : Waited σ :=
  { waited with waits := wait :: waited.waits }

/-- An entry of a job: a child that has its number, or the status of one that has ended. -/
inductive Entry
  | running (pid : Nat)
  | done (status : Int)
deriving DecidableEq, Repr

def Entry.pid? : Entry → Option Nat
  | .running pid => some pid
  | .done _ => none

/-- One wait for all the entries of a job, with what has become of them. -/
structure Pass (σ : Type) where
  statuses : List Int
  entries : List Entry
  waits : List Wait
  left : σ

/-- The status that the reports of a child come to. -/
inductive Ends (reports : List WaitStatus) : Int → Prop
  | exited {before after : List WaitStatus} {code : Int}
      (hreports : reports = before ++ .exited code :: after)
      (halive : ∀ report ∈ before, report.code? = none) : Ends reports code
  | signaled {before after : List WaitStatus} {signal : Nat}
      (hreports : reports = before ++ .signaled signal :: after)
      (halive : ∀ report ∈ before, report.code? = none) : Ends reports (128 + signal)
  | lost (halive : ∀ report ∈ reports, report.code? = none) : Ends reports 127

theorem ends_wait (c : Child) : Ends c.reports c.wait := by
  rw [Child.wait]
  cases hfind : c.reports.findSome? (·.code?) with
  | none => exact .lost (List.findSome?_eq_none_iff.1 hfind)
  | some code =>
    obtain ⟨before, report, after, hreports, hcode, halive⟩ :=
      List.findSome?_eq_some_iff.1 hfind
    cases report with
    | exited code' =>
      obtain rfl := Option.some.inj hcode
      exact .exited hreports halive
    | signaled signal =>
      obtain rfl := Option.some.inj hcode
      exact .signaled hreports halive
    | stopped signal => cases hcode
    | continued => cases hcode
    | stillAlive => cases hcode

theorem wait_ended {report : WaitStatus} {code : Int} (h : report.code? = some code)
    (later : List WaitStatus) : Child.wait ⟨report :: later⟩ = code := by
  simp only [Child.wait, List.findSome?_cons, h, Option.getD_some]

theorem wait_alive {report : WaitStatus} (h : report.code? = none) (later : List WaitStatus) :
    Child.wait ⟨report :: later⟩ = Child.wait ⟨later⟩ := by
  simp only [Child.wait, List.findSome?_cons, h]

namespace System

variable {σ : Type} (sys : System σ)

/-- Waits for a child until it has ended. An interrupted wait is made again, and so is one that
reports that the child lives on. -/
def waitFor (pid : Nat) (s : σ) : Waited σ :=
  match _hreply : sys.wait pid s with
  | (.interrupted, left) => (waitFor pid left).behind ⟨pid, .interrupted⟩
  | (.failed, left) => ⟨launchFailure, [⟨pid, .failed⟩], left⟩
  | (.reported report, left) =>
    match report.code? with
    | some code => ⟨code, [⟨pid, .reported report⟩], left⟩
    | none => (waitFor pid left).behind ⟨pid, .reported report⟩
termination_by sys.room s
decreasing_by
  · cases _hreply ▸ sys.replied pid s with
    | interrupted hroom _ => exact hroom
  · cases _hreply ▸ sys.replied pid s with
    | reported hroom _ _ => exact hroom

/-- Goes through the entries in their order. A running one becomes a finished one in its place. -/
def waitEach : List Entry → σ → Pass σ
  | [], s => ⟨[], [], [], s⟩
  | .done status :: entries, s =>
    let later := waitEach entries s
    ⟨status :: later.statuses, .done status :: later.entries, later.waits, later.left⟩
  | .running pid :: entries, s =>
    let waited := sys.waitFor pid s
    let later := waitEach entries waited.left
    ⟨waited.status :: later.statuses, .done waited.status :: later.entries,
      waited.waits ++ later.waits, later.left⟩

/-- One wait after the other, each on what the system has come to by then. -/
def waitTimes : List Entry → List σ → List (Pass σ)
  | _, [] => []
  | entries, s :: later =>
    sys.waitEach entries s :: waitTimes (sys.waitEach entries s).entries later

/-- The stage that an entry is to a system. -/
def stageOf (s : σ) : Entry → Job.Stage
  | .running pid => .running ⟨sys.reports pid s⟩
  | .done status => .done status

/-- The job that the entries are to a system. -/
def jobOf (s : σ) (entries : List Entry) : Job := ⟨entries.map (sys.stageOf s)⟩

/-- What waiting for one child comes to. -/
structure Reaped (pid : Nat) (s : σ) (waited : Waited σ) : Prop where
  status : waited.status = Child.wait ⟨sys.reports pid s⟩
  others : ∀ child ≠ pid, sys.reports child waited.left = sys.reports child s
  own : ∀ wait ∈ waited.waits, wait.pid = pid
  once : waited.waits.countP (Wait.reaps pid) ≤ 1

variable {sys} {pid : Nat} {s : σ} {entries : List Entry}

/-- A wait after which the child is waited for again. -/
theorem Reaped.behind {left : σ} {waited : Waited σ} (h : sys.Reaped pid left waited)
    {reply : Reply} (hreply : Wait.reaps pid ⟨pid, reply⟩ = false)
    (hstatus : Child.wait ⟨sys.reports pid left⟩ = Child.wait ⟨sys.reports pid s⟩)
    (hothers : ∀ child ≠ pid, sys.reports child left = sys.reports child s) :
    sys.Reaped pid s (waited.behind ⟨pid, reply⟩) where
  status := h.status.trans hstatus
  others := by
    intro child hchild
    exact (h.others child hchild).trans (hothers child hchild)
  own := by
    intro wait hwait
    rcases List.mem_cons.1 hwait with rfl | hlater
    · rfl
    · exact h.own wait hlater
  once := by
    rw [Waited.behind, List.countP_cons_of_neg (by simp [hreply])]
    exact h.once

theorem waitFor_reaped (sys : System σ) (pid : Nat) (s : σ) :
    sys.Reaped pid s (sys.waitFor pid s) := by
  fun_induction sys.waitFor pid s with
  | case1 s left hreply ih =>
    cases hreply ▸ sys.replied pid s with
    | interrupted _ hall =>
      refine ih.behind (by simp [Wait.reaps]) (by rw [hall pid]) ?_
      intro child _
      exact hall child
  | case2 s left hreply =>
    cases hreply ▸ sys.replied pid s with
    | failed hnone hall =>
      refine ⟨?_, fun child _ => hall child, by simp, by simp [Wait.reaps]⟩
      rw [hnone]
      rfl
  | case3 s report left hreply code hcode =>
    cases hreply ▸ sys.replied pid s with
    | reported _ hown hothers =>
      refine ⟨?_, hothers, by simp, List.countP_le_length⟩
      rw [hown, wait_ended hcode]
  | case4 s report left hreply hcode ih =>
    cases hreply ▸ sys.replied pid s with
    | reported _ hown hothers =>
      refine ih.behind (by simp [Wait.reaps, hcode]) ?_ hothers
      rw [hown, wait_alive hcode]

theorem waitEach_entries (sys : System σ) (entries : List Entry) (s : σ) :
    (sys.waitEach entries s).entries = (sys.waitEach entries s).statuses.map .done := by
  induction entries generalizing s with
  | nil => rfl
  | cons entry entries ih =>
    cases entry with
    | done status => simp only [waitEach, List.map_cons, ih]
    | running pid => simp only [waitEach, List.map_cons, ih]

/-- Finished entries are not waited for. -/
theorem waitEach_done (statuses : List Int) (s : σ) :
    sys.waitEach (statuses.map .done) s = ⟨statuses, statuses.map .done, [], s⟩ := by
  induction statuses with
  | nil => rfl
  | cons status statuses ih => simp only [List.map_cons, waitEach, ih]

theorem jobOf_congr {left : σ}
    (h : ∀ pid, .running pid ∈ entries → sys.reports pid left = sys.reports pid s) :
    sys.jobOf left entries = sys.jobOf s entries := by
  apply congrArg Job.mk
  apply List.map_congr_left
  intro entry hentry
  cases entry with
  | running pid => simp only [stageOf, h pid hentry]
  | done status => rfl

theorem pid_mem {child : Nat} (h : .running child ∈ entries) :
    child ∈ entries.filterMap Entry.pid? :=
  List.mem_filterMap.2 ⟨_, h, rfl⟩

variable (sys) in
/-- Waiting in place gives each entry the status of its stage, though other children have been
waited for by then. -/
theorem waitEach_statuses (hdistinct : (entries.filterMap Entry.pid?).Nodup) (s : σ) :
    (sys.waitEach entries s).statuses = (sys.jobOf s entries).statuses := by
  induction entries generalizing s with
  | nil => rfl
  | cons entry entries ih =>
    cases entry with
    | done status => exact congrArg (status :: ·) (ih hdistinct s)
    | running pid =>
      obtain ⟨hnew, hdistinct⟩ := List.nodup_cons.1 hdistinct
      have hreaped := sys.waitFor_reaped pid s
      have hstages : sys.jobOf (sys.waitFor pid s).left entries = sys.jobOf s entries := by
        apply jobOf_congr
        intro child hchild
        apply hreaped.others
        rintro rfl
        exact hnew (pid_mem hchild)
      have hlater := ih hdistinct (sys.waitFor pid s).left
      rw [hstages] at hlater
      exact congrArg₂ List.cons hreaped.status hlater

/-- Only running entries are waited for. -/
theorem running_of_waited (entries : List Entry) (s : σ) :
    ∀ wait ∈ (sys.waitEach entries s).waits, .running wait.pid ∈ entries := by
  induction entries generalizing s with
  | nil => exact fun _ hwait => absurd hwait List.not_mem_nil
  | cons entry entries ih =>
    intro wait hwait
    cases entry with
    | done status => exact List.mem_cons_of_mem _ (ih s wait hwait)
    | running pid =>
      rcases List.mem_append.1 hwait with hown | hlater
      · rw [(sys.waitFor_reaped pid s).own wait hown]
        exact List.mem_cons_self
      · exact List.mem_cons_of_mem _ (ih _ wait hlater)

theorem countP_reaps_eq_zero {waits : List Wait} (h : ∀ wait ∈ waits, wait.pid ≠ pid) :
    waits.countP (Wait.reaps pid) = 0 := by
  apply List.countP_eq_zero.2
  intro wait hwait hreaps
  exact h wait hwait (by simpa using (Bool.and_eq_true_iff.1 hreaps).1)

theorem waitEach_once (hdistinct : (entries.filterMap Entry.pid?).Nodup) (s : σ) (pid : Nat) :
    (sys.waitEach entries s).waits.countP (Wait.reaps pid) ≤ 1 := by
  induction entries generalizing s with
  | nil => exact Nat.zero_le 1
  | cons entry entries ih =>
    cases entry with
    | done status => exact ih hdistinct s
    | running child =>
      obtain ⟨hnew, hdistinct⟩ := List.nodup_cons.1 hdistinct
      have hreaped := sys.waitFor_reaped child s
      rw [waitEach, List.countP_append]
      by_cases hchild : child = pid
      · subst hchild
        have hlater : (sys.waitEach entries (sys.waitFor child s).left).waits.countP
            (Wait.reaps child) = 0 := by
          apply countP_reaps_eq_zero
          rintro wait hwait rfl
          exact hnew (pid_mem (running_of_waited entries _ wait hwait))
        have hown := hreaped.once
        omega
      · have hown : (sys.waitFor child s).waits.countP (Wait.reaps pid) = 0 := by
          apply countP_reaps_eq_zero
          intro wait hwait
          rw [hreaped.own wait hwait]
          exact hchild
        have hlater := ih hdistinct (sys.waitFor child s).left
        omega

/-- Once all entries are finished, waiting gives the same again and nothing is waited for. -/
theorem waitTimes_done (statuses : List Int) (later : List σ) :
    sys.waitTimes (statuses.map .done) later =
      later.map fun s => ⟨statuses, statuses.map .done, [], s⟩ := by
  induction later with
  | nil => rfl
  | cons s later ih => simp only [waitTimes, waitEach_done, List.map_cons, ih]

theorem waits_done (statuses : List Int) (later : List σ) :
    (sys.waitTimes (statuses.map .done) later).flatMap (·.waits) = [] := by
  rw [waitTimes_done]
  apply List.flatMap_eq_nil_iff.2
  intro pass hpass
  obtain ⟨_, -, rfl⟩ := List.mem_map.1 hpass
  rfl

/-- What one wait for a whole job comes to. -/
structure Settled (sys : System σ) (entries : List Entry) (s : σ) (pass : Pass σ) : Prop where
  length : pass.statuses.length = entries.length
  finished : ∀ (i : Nat) (status : Int), entries[i]? = some (.done status) →
    pass.statuses[i]? = some status ∧ pass.entries[i]? = some (.done status)
  ended : ∀ (i : Nat) (pid : Nat), entries[i]? = some (.running pid) →
    ∃ status, Ends (sys.reports pid s) status ∧ pass.statuses[i]? = some status ∧
      pass.entries[i]? = some (.done status)
  none_running : ∀ entry ∈ pass.entries, ∃ status, entry = .done status

theorem waitEach_settled (hdistinct : (entries.filterMap Entry.pid?).Nodup) (s : σ) :
    sys.Settled entries s (sys.waitEach entries s) := by
  have hstatuses := sys.waitEach_statuses hdistinct s
  have hentries := sys.waitEach_entries entries s
  have hat : ∀ (i : Nat) (entry : Entry), entries[i]? = some entry →
      (sys.waitEach entries s).statuses[i]? = some (sys.stageOf s entry).wait ∧
        (sys.waitEach entries s).entries[i]? = some (.done (sys.stageOf s entry).wait) := by
    intro i entry hentry
    rw [hentries, hstatuses]
    simp [jobOf, Job.statuses, hentry]
  constructor
  case length =>
    rw [hstatuses]
    simp [jobOf, Job.statuses]
  case finished =>
    intro i status hentry
    exact hat i _ hentry
  case ended =>
    intro i pid hentry
    exact ⟨_, ends_wait ⟨sys.reports pid s⟩, hat i _ hentry⟩
  case none_running =>
    intro entry hentry
    rw [hentries] at hentry
    obtain ⟨status, -, rfl⟩ := List.mem_map.1 hentry
    exact ⟨status, rfl⟩

end System

/-- Waiting for a job gives what waiting for its children in place gives, whatever the system does
in the meantime and in whatever order the children end. A job that has been waited for is left as it
is, and no child is reaped twice. -/
theorem wait_settled {σ : Type} (sys : System σ) {entries : List Entry}
    (hdistinct : (entries.filterMap Entry.pid?).Nodup) (s : σ) :
    let pass := sys.waitEach entries s
    sys.Settled entries s pass ∧
    (sys.jobOf s entries).wait = (pass.statuses, sys.jobOf pass.left pass.entries) ∧
    (∀ j : Job, j.wait.2.runningCount = 0 ∧ j.wait.2.wait = j.wait) ∧
    (∀ other, (∀ pid, .running pid ∈ entries → sys.reports pid other = sys.reports pid s) →
      (sys.waitEach entries other).statuses = pass.statuses) ∧
    (∀ later, sys.waitTimes pass.entries later =
      later.map fun other => ⟨pass.statuses, pass.entries, [], other⟩) ∧
    ∀ later pid,
      ((sys.waitTimes entries (s :: later)).flatMap (·.waits)).countP (Wait.reaps pid) ≤ 1 := by
  intro pass
  have hstatuses : pass.statuses = _ := sys.waitEach_statuses hdistinct s
  have hentries : pass.entries = _ := sys.waitEach_entries entries s
  refine ⟨System.waitEach_settled hdistinct s, ?_, ?_, ?_, ?_, ?_⟩
  · rw [hentries, hstatuses]
    simp [Job.wait, System.jobOf, System.stageOf, Function.comp_def]
  · intro j
    exact ⟨j.runningCount_wait, j.wait_wait⟩
  · intro other hsame
    rw [sys.waitEach_statuses hdistinct other, hstatuses, System.jobOf_congr hsame]
  · intro later
    rw [hentries]
    exact System.waitTimes_done _ later
  · intro later pid
    rw [System.waitTimes, List.flatMap_cons, System.waitEach_entries, System.waits_done,
      List.append_nil]
    exact System.waitEach_once hdistinct s pid

section Timeline

/-- What happens while children are waited for. -/
inductive Happening
  | interruption
  | change (pid : Nat) (report : WaitStatus)
deriving DecidableEq, Repr

/-- What a child has to report, the earliest first. -/
def reports (pid : Nat) : List Happening → List WaitStatus
  | [] => []
  | .interruption :: happenings => reports pid happenings
  | .change other report :: happenings =>
    if other = pid then report :: reports pid happenings else reports pid happenings

/-- The first that concerns a child, and what else is to happen. -/
def takeOut (pid : Nat) : List Happening → Reply × List Happening
  | [] => (.failed, [])
  | .interruption :: happenings => (.interrupted, happenings)
  | .change other report :: happenings =>
    if other = pid then (.reported report, happenings)
    else ((takeOut pid happenings).1, .change other report :: (takeOut pid happenings).2)

/-- One wait for a child. It fails at once when the child has nothing more to report. -/
def waitOnce (pid : Nat) (happenings : List Happening) : Reply × List Happening :=
  if reports pid happenings = [] then (.failed, happenings) else takeOut pid happenings

variable {pid : Nat} {happenings : List Happening}

theorem Replied.behind {other : Nat} {report : WaitStatus} (hother : other ≠ pid)
    {reply : Reply} {left : List Happening} (hne : reports pid happenings ≠ [])
    (h : Replied reports List.length pid happenings (reply, left)) :
    Replied reports List.length pid (.change other report :: happenings)
      (reply, .change other report :: left) := by
  cases h with
  | failed hnone _ => exact absurd hnone hne
  | interrupted hroom hall =>
    refine .interrupted (Nat.succ_lt_succ hroom) ?_
    intro child
    simp only [reports, hall child]
  | reported hroom hown hothers =>
    refine .reported (Nat.succ_lt_succ hroom) ?_ ?_
    · simp only [reports, if_neg hother, hown]
    · intro child hchild
      simp only [reports, hothers child hchild]

theorem waitOnce_replied (pid : Nat) (happenings : List Happening) :
    Replied reports List.length pid happenings (waitOnce pid happenings) := by
  rw [waitOnce]
  split
  case isTrue hnone => exact .failed hnone fun _ => rfl
  case isFalse hne =>
    induction happenings with
    | nil => exact absurd rfl hne
    | cons happening happenings ih =>
      cases happening with
      | interruption => exact .interrupted (Nat.lt_succ_self _) fun _ => rfl
      | change other report =>
        by_cases hother : other = pid
        · subst hother
          rw [takeOut, if_pos rfl]
          refine .reported (Nat.lt_succ_self _) ?_ ?_
          · rw [reports, if_pos rfl]
          · intro child hchild
            rw [reports, if_neg hchild.symm]
        · rw [reports, if_neg hother] at hne
          rw [takeOut, if_neg hother]
          exact (ih hne).behind hother hne

/-- The system on which things happen one after the other. -/
def timeline : System (List Happening) where
  wait := waitOnce
  reports := reports
  room := List.length
  replied := waitOnce_replied

/-- The second child ends first, and the wait for the first one is interrupted. The third is no
child at all. -/
theorem wait_settled_children :
    ([.running 7, .done 127, .running 8, .running 9].filterMap Entry.pid?).Nodup ∧
      (timeline.waitEach [.running 7, .done 127, .running 8, .running 9] [.change 8 (.exited 5),
        .interruption, .change 7 .continued, .change 7 (.signaled 9)]).statuses =
          [137, 127, 5, 127] ∧
      ((timeline.waitTimes [.running 7, .done 127, .running 8, .running 9] [[.change 8 (.exited 5),
        .interruption, .change 7 .continued, .change 7 (.signaled 9)], []]).flatMap
          (·.waits)).countP (Wait.reaps 7) ≤ 1 := by
  have hdistinct : ([.running 7, .done 127, .running 8, .running 9].filterMap
      Entry.pid?).Nodup := by decide
  obtain ⟨-, hwait, -, -, -, honce⟩ := wait_settled timeline hdistinct [.change 8 (.exited 5),
    .interruption, .change 7 .continued, .change 7 (.signaled 9)]
  refine ⟨hdistinct, ?_, honce _ 7⟩
  exact (congrArg Prod.fst hwait).symm

end Timeline

end Waiting
end PipeShell
