import PipeShell.Proofs.Files.Building
import PipeShell.Proofs.Shell.Directory

/-! Where a change of directory ends. It stores the canonical path of the directory that its target
leads to, so that the working directory is canonical from then on, and a way over some directory may
be gone in two. -/
namespace PipeShell
namespace Host

variable {host : Host} {path directory : String} {place : Place}

theorem canonicalDirectory_leads (hleads : host.LeadsTo path place)
    (hdirect : host.tree.Direct place) : host.canonicalDirectory path = .ok (Tree.pathOf place) :=
  canonicalDirectory_eq_ok.2 ⟨place, resolve_eq_ok.2 hleads, hdirect.isDirectory, rfl⟩

/-- On a sound host the directories that paths lead to are those that have canonical paths. -/
theorem canonicalDirectory_iff (hsound : host.Sound) :
    host.canonicalDirectory path = .ok directory ↔ ∃ place, host.LeadsTo path place ∧
      host.tree.Direct place ∧ Tree.pathOf place = directory := by
  constructor
  · intro h
    obtain ⟨place, hplace, hdir, hpath⟩ := canonicalDirectory_eq_ok.1 h
    have hleads := resolve_eq_ok.1 hplace
    exact ⟨place, hleads, hleads.direct hsound hdir, hpath⟩
  · rintro ⟨place, hleads, hdirect, rfl⟩
    exact canonicalDirectory_leads hleads hdirect

end Host

namespace Builtin

/-- One call of a builtin, whose output works or does not. -/
structure Call where
  builtin : Builtin
  arguments : List String
  scope : Scope
  outputWorks : Bool

def Call.run (host : Host) (call : Call) (shell : Shell) : Result :=
  call.builtin.run host call.arguments call.scope call.outputWorks shell

/-- The shell behind one call after the other. -/
def after (host : Host) (calls : List Call) (shell : Shell) : Shell :=
  calls.foldl (fun shell call => (call.run host shell).shell) shell

/-- The working directory is canonical, and going to where one is changes nothing. -/
structure Settled (host : Host) (shell : Shell) : Prop where
  canonical : host.Canonical shell.workDir
  stays : ∀ scope works,
    cd.run host ["."] scope works shell = { outcome := .executed 0, shell }

variable {host : Host} {shell : Shell} {arguments : List String} {place : Place}

variable (host shell arguments) in
theorem changeDirectory_eq (scope : Scope) : changeDirectory host arguments scope shell =
    match host.canonicalDirectory (shell.target arguments) with
    | .ok directory =>
      { outcome := .executed 0
        shell := if scope = .session then { shell with workDir := directory } else shell }
    | .error reason =>
      { outcome := .executed 1
        output := Utf8.ofString
          ("cd: " ++ arguments.head?.getD shell.home ++ ": " ++ reason.message ++ "\n")
        shell } :=
  rfl

/-- A change of directory that leads to one says nothing. -/
theorem run_cd_goes {directory : String}
    (h : host.canonicalDirectory (shell.target arguments) = .ok directory) (scope : Scope)
    (works : Bool) : cd.run host arguments scope works shell =
      { outcome := .executed 0
        shell := if scope = .session then { shell with workDir := directory } else shell } := by
  cases works <;> simp only [run, changeDirectory_eq, h] <;> rfl

theorem run_cd_fails {reason : SystemError}
    (h : host.canonicalDirectory (shell.target arguments) = .error reason) (scope : Scope)
    (works : Bool) : cd.run host arguments scope works shell =
      { outcome := .executed 1
        output :=
          if works then Utf8.ofString
            ("cd: " ++ arguments.head?.getD shell.home ++ ": " ++ reason.message ++ "\n")
          else []
        shell } := by
  cases works <;> simp only [run, changeDirectory_eq, h] <;> rfl

/-- In either scope a change of directory ends the same and says the same. -/
theorem run_cd_pipeline (works : Bool) : cd.run host arguments .pipeline works shell =
    { cd.run host arguments .session works shell with shell } := by
  cases h : host.canonicalDirectory (shell.target arguments) with
  | ok directory =>
    rw [run_cd_goes h, run_cd_goes h]
    rfl
  | error reason => rw [run_cd_fails h, run_cd_fails h]

theorem call_canonical (hsound : host.Sound) (call : Call)
    (h : host.Canonical shell.workDir) : host.Canonical (call.run host shell).shell.workDir := by
  obtain ⟨builtin, arguments, scope, works⟩ := call
  cases scope with
  | pipeline =>
    rw [Call.run, Execution.pipeline_shell]
    exact h
  | session =>
    rw [Call.run, Execution.builtin_shell]
    split_ifs with hcd
    · cases hgoes : host.canonicalDirectory (shell.target arguments) with
      | error reason =>
        rw [changeDirectory_eq, hgoes]
        exact h
      | ok directory =>
        rw [changeDirectory_eq, hgoes]
        obtain ⟨place, -, hdirect, rfl⟩ := (Host.canonicalDirectory_iff hsound).1 hgoes
        exact .of_direct hdirect
    · exact h

theorem after_canonical (hsound : host.Sound) (calls : List Call)
    (h : host.Canonical shell.workDir) : host.Canonical (after host calls shell).workDir := by
  induction calls generalizing shell with
  | nil => exact h
  | cons call calls ih => exact ih (call_canonical hsound call h)

theorem Settled.of_canonical (h : host.Canonical shell.workDir) : Settled host shell := by
  refine ⟨h, ?_⟩
  intro scope works
  obtain ⟨place, hdirect, hpath⟩ := h.direct
  have hhere : host.LeadsTo (shell.target ["."]) place := by
    have hdot := Host.LeadsTo.here hdirect
    rwa [hpath] at hdot
  have hstays := Host.canonicalDirectory_leads hhere hdirect
  rw [hpath] at hstays
  rw [run_cd_goes hstays]
  split_ifs <;> rfl

/-- A change of directory succeeds exactly if its target leads to a directory. Then it stores the
canonical path of that directory, and behind any calls of builtins the working directory is still
canonical and a dot leads to it. One that fails says so with its target as given, and leaves the
shell as it was. Within a pipeline it ends the same and says the same, and never moves the shell. -/
theorem run_cd_canonical (host : Host) (shell : Shell) (arguments : List String) (works : Bool)
    (hsound : host.Sound) :
    let target := shell.target arguments
    let done := cd.run host arguments .session works shell
    cd.run host arguments .pipeline works shell = { done with shell } ∧
      (done.outcome = .executed 0 ↔
        ∃ place, host.LeadsTo target place ∧ host.tree.isDirectory place = true) ∧
      (done.outcome = .executed 0 → ∃ place, host.LeadsTo target place ∧
        host.Canonical (Tree.pathOf place) ∧
        done = { outcome := .executed 0
                 shell := { shell with workDir := Tree.pathOf place } } ∧
        ∀ calls, Settled host (after host calls done.shell)) ∧
      (done.outcome ≠ .executed 0 → ∃ reason, host.canonicalDirectory target = .error reason ∧
        done = { outcome := .executed 1
                 output :=
                   if works then Utf8.ofString
                     ("cd: " ++ arguments.head?.getD shell.home ++ ": " ++ reason.message ++ "\n")
                   else []
                 shell }) := by
  intro target done
  refine ⟨run_cd_pipeline works, ?_⟩
  cases h : host.canonicalDirectory target with
  | ok directory =>
    have hdone : done = _ := run_cd_goes h .session works
    obtain ⟨place, hleads, hdirect, rfl⟩ := (Host.canonicalDirectory_iff hsound).1 h
    have hcanonical := Host.Canonical.of_direct hdirect
    have hsucceeds : done.outcome = .executed 0 := by rw [hdone]
    refine ⟨⟨fun _ => ⟨place, hleads, hdirect.isDirectory⟩, fun _ => hsucceeds⟩, ?_, ?_⟩
    · intro _
      refine ⟨place, hleads, hcanonical, hdone, fun calls => ?_⟩
      refine .of_canonical (after_canonical hsound calls ?_)
      rw [hdone]
      exact hcanonical
    · exact fun hfails => absurd hsucceeds hfails
  | error reason =>
    have hdone : done = _ := run_cd_fails h .session works
    have hfails : done.outcome ≠ .executed 0 := by
      rw [hdone]
      rintro ⟨⟩
    refine ⟨⟨fun hsucceeds => absurd hsucceeds hfails, ?_⟩, ?_, ?_⟩
    · rintro ⟨place, hleads, hdir⟩
      have hgoes := Host.canonicalDirectory_leads hleads (hleads.direct hsound hdir)
      cases h.symm.trans hgoes
    · exact fun hsucceeds => absurd hsucceeds hfails
    · exact fun _ => ⟨reason, rfl, hdone⟩

/-- A directory with another one in it, a link to the inner one, a link to itself, and a file. -/
def nested : Host where
  tree := .build [(["d", "e"], .directory), (["l"], .link "d/e"), (["loop"], .link "loop"),
    (["f"], .file [] false)]

theorem sound_nested : nested.Sound := ⟨Tree.wellNamed_build (by decide), .root _⟩

/-- Into the inner directory over the link and up from there, and around in circles. -/
theorem run_cd_canonical_nested :
    let shell : Shell := { workDir := "d/..", home := "loop" }
    let moved := (cd.run nested ["l/."] .session false shell).shell
    nested.Sound ∧ moved = { shell with workDir := "/d/e" } ∧ nested.Canonical "/d/e" ∧
      Settled nested (after nested
        [⟨.cd, ["../.."], .pipeline, true⟩, ⟨.cd, [".."], .session, true⟩] moved) ∧
      (cd.run nested [] .pipeline true shell).output =
        Utf8.ofString "cd: loop: Too many levels of symbolic links (os error 40)\n" := by
  intro shell moved
  have hmoved : moved = { shell with workDir := "/d/e" } := by decide +kernel
  obtain ⟨-, -, hgoes, -⟩ := run_cd_canonical nested shell ["l/."] false sound_nested
  obtain ⟨place, -, hcanonical, hdone, hsettled⟩ := hgoes (by decide +kernel)
  have hplace : Tree.pathOf place = "/d/e" := by
    have hdirectory := congrArg (·.shell.workDir) hdone
    exact hdirectory.symm.trans (congrArg Shell.workDir hmoved)
  obtain ⟨hpipeline, -, -, hfails⟩ := run_cd_canonical nested shell [] true sound_nested
  obtain ⟨reason, hreason, hcomplaint⟩ := hfails (by decide +kernel)
  have hloop : nested.canonicalDirectory "loop" = .error .linkLoop := by rfl
  obtain rfl : reason = .linkLoop := Except.error.inj (hreason.symm.trans hloop)
  refine ⟨sound_nested, hmoved, hplace ▸ hcanonical, hsettled _, ?_⟩
  rw [hpipeline, hcomplaint]
  decide +kernel

/-- A way to a directory over another path may be gone in two, whatever links either half follows:
the second half is taken from where the first half leads. -/
theorem run_cd_inTwo (host : Host) (shell : Shell) (works : Bool) (first second : String)
    (hsound : host.Sound) (hfirst : first ≠ "") (hsecond : PathText.isAbsolute second = false)
    (hgoes : (cd.run host [first ++ "/" ++ second] .session works shell).outcome = .executed 0) :
    let halfway := cd.run host [first] .session works shell
    halfway.outcome = .executed 0 ∧
      cd.run host [second] .session works halfway.shell =
        cd.run host [first ++ "/" ++ second] .session works shell := by
  intro halfway
  cases h : host.canonicalDirectory (shell.target [first ++ "/" ++ second]) with
  | error reason =>
    rw [run_cd_fails h] at hgoes
    cases hgoes
  | ok directory =>
    obtain ⟨place, hleads, hdirect, rfl⟩ := (Host.canonicalDirectory_iff hsound).1 h
    have htarget : shell.target [first ++ "/" ++ second] =
        shell.target [first] ++ "/" ++ second :=
      PathText.join_slash shell.workDir hfirst second
    have hbase : shell.target [first] ≠ "" := PathText.join_ne_empty shell.workDir hfirst
    have hwhole := hleads
    rw [htarget] at hwhole
    obtain ⟨between, hbetween, hhalfway, hrest⟩ := hwhole.divide hsound hbase hsecond
    let there : Shell := { shell with workDir := Tree.pathOf between }
    have hdone : halfway = { outcome := .executed 0, shell := there } :=
      run_cd_goes (Host.canonicalDirectory_leads hhalfway hbetween) .session works
    have hlast : host.canonicalDirectory (there.target [second]) = .ok (Tree.pathOf place) :=
      Host.canonicalDirectory_leads hrest hdirect
    refine ⟨by rw [hdone], ?_⟩
    rw [hdone, run_cd_goes h, run_cd_goes hlast]
    rfl

/-- Out of the inner directory from behind the link. -/
theorem run_cd_inTwo_nested :
    let shell : Shell := { workDir := "/", home := "/" }
    let halfway := cd.run nested ["l"] .session true shell
    halfway.outcome = .executed 0 ∧ halfway.shell.workDir = "/d/e" ∧
      (cd.run nested ["..//"] .session true halfway.shell).shell.workDir = "/d" := by
  intro shell halfway
  obtain ⟨hhalfway, hdone⟩ := run_cd_inTwo nested shell true "l" "..//" sound_nested (by decide)
    (by decide) (by decide +kernel)
  refine ⟨hhalfway, by decide +kernel, ?_⟩
  rw [hdone]
  decide +kernel

end Builtin
end PipeShell
