import PipeShell.Proofs.Shell.Endpoints

/-! What a pipeline does to the shell. The one thing that it may change is the working directory,
and only a change of directory that is the whole pipeline does. -/
namespace PipeShell

/-- Where a change of directory leads: to its first argument, or home. -/
def Shell.target (s : Shell) (arguments : List String) : String :=
  match arguments.head? with
  | some dir => s.resolve dir
  | none => s.home

theorem Builtin.named_eq_cd {name : String} : named name = some .cd ↔ name = "cd" := by
  constructor
  · intro h
    simp only [named] at h
    split_ifs at h with hexit hstop hcd hdragon hrc
    · cases h
    · cases h
    · exact beq_iff_eq.1 hcd
    · cases h
    · cases h
  · rintro rfl
    rfl

theorem Host.canonicalDirectory_eq_ok {host : Host} {path directory : String} :
    host.canonicalDirectory path = .ok directory ↔ ∃ place, host.resolve path = .ok place ∧
      host.tree.isDirectory place = true ∧ Tree.pathOf place = directory := by
  simp only [canonicalDirectory]
  cases host.resolve path with
  | error e => simp [bind, Except.bind]
  | ok place =>
    by_cases hdir : host.tree.isDirectory place = true <;> simp [bind, Except.bind, hdir]

namespace Execution

variable (host : Host) (ends : Endpoints) (shell : Shell)

/-- The input file of a command is there, if it names one. -/
def opens (c : Command) : Bool :=
  c.input.all fun file => (host.openFile (shell.resolve file)).isOk

/-- The canonical path that a pipeline stores as the working directory: a lone change of directory
stores that of its target, unless its input file does not open or the target is no directory. -/
def stored : Pipeline → Option String
  | [c] =>
    if Builtin.named c.name = some .cd ∧ opens host shell c then
      (host.canonicalDirectory (shell.target c.arguments)).toOption
    else none
  | _ => none

theorem changeDirectory_shell (arguments : List String) :
    (Builtin.changeDirectory host arguments .session shell).shell =
      { shell with workDir :=
          (host.canonicalDirectory (shell.target arguments)).toOption.getD shell.workDir } := by
  simp only [Builtin.changeDirectory]
  split
  · case h_1 path h =>
    have hpath : host.canonicalDirectory (shell.target arguments) = .ok path := h
    rw [hpath]
    rfl
  · case h_2 e h =>
    have hpath : host.canonicalDirectory (shell.target arguments) = .error e := h
    rw [hpath]
    rfl

/-- No other builtin touches the shell. -/
theorem builtin_shell (b : Builtin) (arguments : List String) (works : Bool) :
    (b.run host arguments .session works shell).shell =
      if b = .cd then (Builtin.changeDirectory host arguments .session shell).shell
      else shell := by
  cases b <;> cases works <;> rfl

/-- A builtin in a pipeline leaves the shell as it is. -/
theorem pipeline_shell (b : Builtin) (arguments : List String) (works : Bool) :
    (b.run host arguments .pipeline works shell).shell = shell := by
  have hcd : (Builtin.changeDirectory host arguments .pipeline shell).shell = shell := by
    simp only [Builtin.changeDirectory]
    split <;> rfl
  cases b with
  | cd => cases works <;> exact hcd
  | exit | stopServer | dragon | rc => cases works <;> rfl

theorem runLone_shell (b : Builtin) (c : Command) (s : Streams) :
    (runLone host ends b c shell s).shell =
      if opens host shell c then (b.run host c.arguments .session ends.outputWorks shell).shell
      else shell := by
  cases hi : c.input with
  | none =>
    have hopens : opens host shell c = true := by
      rw [opens, hi]
      rfl
    simp only [runLone, hi, hopens, Option.bind_none, if_true]
  | some file =>
    cases ho : host.openFile (shell.resolve file) with
    | ok content =>
      have hopens : opens host shell c = true := by
        rw [opens, hi, Option.all_some, ho]
        rfl
      simp only [runLone, hi, ho, hopens, Option.bind_some, if_true]
    | error e =>
      have hopens : opens host shell c = false := by
        rw [opens, hi, Option.all_some, ho]
        rfl
      simp only [runLone, hi, ho, hopens, Option.bind_some, Bool.false_eq_true, if_false]
      split <;> rfl

theorem stored_of_not_lone {p : Pipeline} (h : ¬ Lone p) : stored host shell p = none := by
  match p with
  | [] => rfl
  | [c] =>
    rw [stored, if_neg]
    rintro ⟨hcd, -⟩
    exact h ⟨c, .cd, rfl, hcd⟩
  | _ :: _ :: _ => rfl

theorem stored_of_no_cd {p : Pipeline} (h : ∀ c ∈ p, Builtin.named c.name ≠ some .cd) :
    stored host shell p = none := by
  match p with
  | [] => rfl
  | [c] =>
    rw [stored, if_neg]
    rintro ⟨hcd, -⟩
    exact h c List.mem_cons_self hcd
  | _ :: _ :: _ => rfl

/-- Whatever a pipeline is connected to and however it ends, it leaves the shell as it is but for
the directory that it stores. -/
theorem run_shell (p : Pipeline) (s : Streams) : (run host ends p shell s).shell =
    { shell with workDir := (stored host shell p).getD shell.workDir } := by
  by_cases hl : Lone p
  · obtain ⟨c, b, rfl, hb⟩ := hl
    rw [run_lone host ends shell s hb, runLone_shell, builtin_shell, stored, hb]
    by_cases hopens : opens host shell c = true
    · by_cases hcd : b = .cd
      · subst hcd
        rw [if_pos hopens, if_pos rfl, if_pos ⟨rfl, hopens⟩, changeDirectory_shell]
      · rw [if_pos hopens, if_neg hcd, if_neg]
        · rfl
        · rintro ⟨hnamed, -⟩
          exact hcd (Option.some.inj hnamed)
    · rw [if_neg hopens, if_neg]
      · rfl
      · rintro ⟨-, h⟩
        exact hopens h
  · rw [stored_of_not_lone host shell hl]
    by_cases hp : p = []
    · subst hp
      rfl
    · rw [(run_runs host ends shell hp hl s).2.1]
      rfl

section Moving

variable {host ends shell}

theorem opens_iff {c : Command} : opens host shell c = true ↔
    ∀ file, c.input = some file → ∃ content, host.openFile (shell.resolve file) = .ok content := by
  rw [opens, Option.all_eq_true]
  refine forall₂_congr fun file _ => ?_
  cases host.openFile (shell.resolve file) <;> simp [Except.isOk, Except.toBool]

/-- One change of directory and nothing else, whose input file is there if it names one, leads to
the canonical path of a directory. -/
inductive Moves (host : Host) (shell : Shell) : Pipeline → String → Prop
  | lone {c : Command} {place : Place} (hname : c.name = "cd")
      (hopens : ∀ file, c.input = some file →
        ∃ content, host.openFile (shell.resolve file) = .ok content)
      (hplace : host.resolve (shell.target c.arguments) = .ok place)
      (hdir : host.tree.isDirectory place = true) : Moves host shell [c] (Tree.pathOf place)

theorem stored_eq_some {p : Pipeline} {path : String} :
    stored host shell p = some path ↔ Moves host shell p path := by
  constructor
  · intro h
    match p with
    | [] => cases h
    | [c] =>
      rw [stored] at h
      split_ifs at h with hcd
      obtain ⟨hname, hopens⟩ := hcd
      cases hfound : host.canonicalDirectory (shell.target c.arguments) with
      | error e =>
        rw [hfound] at h
        cases h
      | ok found =>
        rw [hfound] at h
        obtain rfl : found = path := Option.some.inj h
        obtain ⟨place, hplace, hdir, rfl⟩ := Host.canonicalDirectory_eq_ok.1 hfound
        exact .lone (Builtin.named_eq_cd.1 hname) (opens_iff.1 hopens) hplace hdir
    | _ :: _ :: _ => cases h
  · rintro ⟨hname, hopens, hplace, hdir⟩
    rw [stored, if_pos ⟨Builtin.named_eq_cd.2 hname, opens_iff.2 hopens⟩,
      Host.canonicalDirectory_eq_ok.2 ⟨_, hplace, hdir, rfl⟩]
    rfl

/-- A builtin by itself whose input file opens ends as it wants to. -/
theorem runLone_opened (b : Builtin) {c : Command} (hopens : opens host shell c = true)
    (s : Streams) : (runLone host ends b c shell s).result =
      .ok (match (b.run host c.arguments .session ends.outputWorks shell).outcome with
        | .executed code => .exited code
        | .exit => .exit
        | .stopServer => .stopServer) := by
  cases hi : c.input with
  | none =>
    cases hb : (b.run host c.arguments .session ends.outputWorks shell).outcome <;>
      simp only [runLone, hi, Option.bind_none, hb]
  | some file =>
    obtain ⟨content, hcontent⟩ := opens_iff.1 hopens file hi
    cases hb : (b.run host c.arguments .session ends.outputWorks shell).outcome <;>
      simp only [runLone, hi, Option.bind_some, hcontent, hb]

theorem runLone_result {b : Builtin} {c : Command} {code : Int} (hopens : opens host shell c = true)
    (hb : (b.run host c.arguments .session ends.outputWorks shell).outcome = .executed code)
    (s : Streams) : (runLone host ends b c shell s).result = .ok (.exited code) := by
  rw [runLone_opened b hopens, hb]

/-- A pipeline that leads to a directory ends well, wherever it writes to. -/
theorem Moves.result {p : Pipeline} {path : String} (h : Moves host shell p path) (s : Streams) :
    (run host ends p shell s).result = .ok (.exited 0) := by
  cases h with
  | @lone c place hname hopens hplace hdir =>
    have hpath : host.canonicalDirectory (shell.target c.arguments) = .ok (Tree.pathOf place) :=
      Host.canonicalDirectory_eq_ok.2 ⟨place, hplace, hdir, rfl⟩
    have hgoes : (Builtin.changeDirectory host c.arguments .session shell).outcome =
        .executed 0 := by
      simp only [Builtin.changeDirectory]
      split
      · rfl
      · case h_2 e he => cases hpath.symm.trans he
    rw [run_lone host ends shell s (Builtin.named_eq_cd.2 hname)]
    refine runLone_result (opens_iff.2 hopens) ?_ s
    cases ends.outputWorks <;> exact hgoes

theorem run_workDir_of_moves {p : Pipeline} {path : String} (h : Moves host shell p path)
    (s : Streams) : (run host ends p shell s).shell.workDir = path := by
  rw [run_shell, stored_eq_some.2 h]
  rfl

theorem run_shell_of_still {p : Pipeline}
    (h : ¬ ∃ path, Moves host shell p path ∧ path ≠ shell.workDir) (s : Streams) :
    (run host ends p shell s).shell = shell := by
  have hdirectory : (stored host shell p).getD shell.workDir = shell.workDir := by
    cases hstored : stored host shell p with
    | none => rfl
    | some path =>
      by_contra hne
      exact h ⟨path, stored_eq_some.1 hstored, hne⟩
  rw [run_shell, hdirectory]

end Moving

/-- A pipeline never touches the home or the last status, and it moves to another directory exactly
if it is one change of directory that leads there. In every other case the shell is as it was:
behind a pipeline of several stages, one with any other command, or one that does not end well. -/
theorem run_frame (host : Host) (ends : Endpoints) (shell : Shell) (p : Pipeline) (s : Streams) :
    let done := run host ends p shell s
    done.shell.home = shell.home ∧ done.shell.lastStatus = shell.lastStatus ∧
      (done.shell.workDir ≠ shell.workDir ↔
        ∃ path, Moves host shell p path ∧ path ≠ shell.workDir) ∧
      (∀ path, Moves host shell p path → done.shell.workDir = path) ∧
      ((¬ ∃ path, Moves host shell p path ∧ path ≠ shell.workDir) → done.shell = shell) ∧
      (2 ≤ p.length → done.shell = shell) ∧
      (∀ c ∈ p, c.name ≠ "cd" → done.shell = shell) ∧
      (done.result ≠ .ok (.exited 0) → done.shell = shell) := by
  intro done
  have hmoved : ∀ path, Moves host shell p path → done.shell.workDir = path :=
    fun _ h => run_workDir_of_moves h s
  have hstill : (¬ ∃ path, Moves host shell p path ∧ path ≠ shell.workDir) →
      done.shell = shell := fun h => run_shell_of_still h s
  have hshell : done.shell =
      { shell with workDir := (stored host shell p).getD shell.workDir } :=
    run_shell host ends shell p s
  refine ⟨by rw [hshell], by rw [hshell], ⟨?_, ?_⟩, hmoved, hstill, ?_, ?_, ?_⟩
  · intro hne
    by_contra hnone
    exact hne (congrArg Shell.workDir (hstill hnone))
  · rintro ⟨path, hmoves, hne⟩
    rw [hmoved path hmoves]
    exact hne
  · intro hlength
    apply hstill
    rintro ⟨path, ⟨⟩, -⟩
    simp at hlength
  · intro c hc hname
    apply hstill
    rintro ⟨path, ⟨hcd, -, -, -⟩, -⟩
    rw [List.mem_singleton.1 hc] at hname
    exact hname hcd
  · intro hresult
    apply hstill
    rintro ⟨path, hmoves, -⟩
    exact hresult (hmoves.result s)

/-- A directory, a link to it, and a file. -/
def linkedDirectory : Host where
  tree := { entries := [(["d"], .directory), (["l"], .link "d"), (["f"], .file [] false)] }

/-- Over the link and back into it, with a file that is there. -/
def overLink : Pipeline := [{ name := "cd", arguments := ["l/../l/."], input := some "f" }]

theorem run_frame_overLink :
    Moves linkedDirectory { workDir := "/", home := "/" } overLink "/d" ∧
      (run linkedDirectory { outputWorks := false } overLink { workDir := "/", home := "/" }
        {}).shell.workDir = "/d" ∧
      (run linkedDirectory {} (overLink ++ overLink) { workDir := "/", home := "/" } {}).shell =
        { workDir := "/", home := "/" } := by
  have hmoves : Moves linkedDirectory { workDir := "/", home := "/" } overLink "/d" :=
    stored_eq_some.1 (by decide +kernel)
  obtain ⟨-, -, -, hmoved, -⟩ := run_frame linkedDirectory { outputWorks := false }
    { workDir := "/", home := "/" } overLink {}
  obtain ⟨-, -, -, -, -, hseveral, -⟩ := run_frame linkedDirectory {}
    { workDir := "/", home := "/" } (overLink ++ overLink) {}
  exact ⟨hmoves, hmoved "/d" hmoves, hseveral (by decide)⟩

end Execution
end PipeShell
