import PipeShell.Files.Host
import PipeShell.Proofs.Files.Walk

/-! Where the paths of a host lead. A canonical path leads down to the directory that it names, and
what is joined to it is taken from there. -/
namespace PipeShell

namespace Tree

variable {t : Tree} {place : Place}

theorem steps_pathOf (h : ∀ name ∈ place, IsName name) :
    PathText.steps (pathOf place) = "" :: if place = [] then [""] else place := by
  have hbehind : PathText.steps (String.intercalate "/" place) =
      if place = [] then [""] else place := by
    split_ifs with hroot
    · subst hroot
      rfl
    · apply PathText.splitAtChar_intercalate hroot
      intro name hname hslash
      exact ((h name hname).plain '/' hslash).1 rfl
  have hpath : pathOf place = "" ++ "/" ++ String.intercalate "/" place := by
    rw [String.empty_append, pathOf]
  rw [hpath, PathText.steps_slash, hbehind]
  rfl

theorem isAbsolute_pathOf (place : Place) :
    PathText.isAbsolute (pathOf place) = true := by
  rw [pathOf, PathText.isAbsolute_append (by decide)]
  rfl

/-- Only the path of the root ends in a slash. -/
theorem last_pathOf (h : ∀ name ∈ place, IsName name) (hplace : place ≠ []) :
    (pathOf place).toList.getLast? ≠ some '/' := by
  intro hlast
  -- Behind a slash at the end there would be an empty step, and the last step is a name.
  obtain ⟨front, hfront⟩ := List.getLast?_eq_some_iff.1 hlast
  have hpath : pathOf place = String.ofList front ++ "/" ++ "" := by
    apply String.toList_injective
    simp [hfront]
  have hsteps := steps_pathOf h
  rw [hpath, PathText.steps_slash, if_neg hplace] at hsteps
  have hempty : some (place.getLast hplace) = some "" := by
    rw [← List.getLast?_eq_some_getLast hplace, ← List.getLast?_cons_of_ne_nil hplace, ← hsteps]
    exact List.getLast?_concat
  exact (h _ (List.getLast_mem hplace)).nonempty (Option.some.inj hempty)

/-- What is taken from a named place goes down to it from the root first. -/
theorem steps_join_pathOf (h : ∀ name ∈ place, IsName name) {path : String}
    (hpath : PathText.isAbsolute path = false) :
    PathText.steps (PathText.join (pathOf place) path) =
      "" :: (place ++ PathText.steps path) := by
  have hbase : ¬ (PathText.isAbsolute path || pathOf place == "") = true := by
    simp [hpath, pathOf]
  rw [PathText.join, if_neg hbase]
  by_cases hplace : place = []
  · subst hplace
    have hroot : pathOf [] ++ path = "" ++ "/" ++ path := rfl
    rw [if_pos (by decide), hroot, PathText.steps_slash]
    rfl
  · rw [if_neg (mt beq_iff_eq.1 (last_pathOf h hplace)), PathText.steps_slash,
      steps_pathOf h, if_neg hplace]
    rfl

theorem isAbsolute_join_pathOf (place : Place) (path : String) :
    PathText.isAbsolute (PathText.join (pathOf place) path) = true := by
  have hne : pathOf place ≠ "" := by simp [pathOf]
  rw [PathText.join]
  split_ifs with hpath hlast
  · simpa [hne] using hpath
  · rw [PathText.isAbsolute_append hne, isAbsolute_pathOf]
  · rw [String.append_assoc, PathText.isAbsolute_append hne, isAbsolute_pathOf]

end Tree

namespace Host

/-- Entries are found by names, and the host is in a directory of its tree. -/
structure Sound (h : Host) : Prop where
  names : h.tree.WellNamed
  directory : h.tree.Direct h.directory

/-- Where a path is taken from. -/
def origin (h : Host) (path : String) : Place :=
  if PathText.isAbsolute path then [] else h.directory

/-- A path leads to a place, over no more links than a walk may follow. -/
structure LeadsTo (h : Host) (path : String) (place : Place) : Prop where
  nonempty : path ≠ ""
  noNul : '\x00' ∉ path.toList
  course : ∃ links ≤ Tree.maxLinks,
    h.tree.Leads (h.origin path) (PathText.steps path) links place

/-- The path of a directory, from the root, through directories only and by their names. -/
structure Canonical (h : Host) (path : String) : Prop where
  absolute : PathText.isAbsolute path = true
  undotted : ∀ step ∈ PathText.steps path, step ≠ "." ∧ step ≠ ".."
  direct : ∃ place, h.tree.Direct place ∧ Tree.pathOf place = path

variable {h : Host} {path : String} {place : Place}

theorem resolve_eq_ok : h.resolve path = .ok place ↔ h.LeadsTo path place := by
  rw [resolve, Tree.resolve]
  by_cases hnul : '\x00' ∈ path.toList
  · rw [if_pos (List.contains_iff_mem.2 hnul)]
    exact iff_of_false (by rintro ⟨⟩) fun hleads => hleads.noNul hnul
  by_cases hempty : path = ""
  · rw [if_neg (mt List.contains_iff_mem.1 hnul), if_pos (beq_iff_eq.2 hempty)]
    exact iff_of_false (by rintro ⟨⟩) fun hleads => hleads.nonempty hempty
  rw [if_neg (mt List.contains_iff_mem.1 hnul), if_neg (mt beq_iff_eq.1 hempty),
    Tree.walk_eq_ok]
  exact ⟨fun hcourse => ⟨hempty, hnul, hcourse⟩, LeadsTo.course⟩

theorem Sound.origin (hsound : h.Sound) (path : String) : h.tree.Direct (h.origin path) :=
  hsound.directory.orRoot _

/-- The directory that a path leads to has a canonical path. -/
theorem LeadsTo.direct (hleads : h.LeadsTo path place) (hsound : h.Sound)
    (hdir : h.tree.isDirectory place = true) : h.tree.Direct place := by
  obtain ⟨links, -, hcourse⟩ := hleads.course
  exact hcourse.direct hsound.names (hsound.origin path) hdir

theorem Canonical.of_direct (hdirect : h.tree.Direct place) : h.Canonical (Tree.pathOf place) := by
  refine ⟨Tree.isAbsolute_pathOf place, ?_, place, hdirect, rfl⟩
  rw [Tree.steps_pathOf hdirect.names]
  intro step hstep
  rcases List.mem_cons.1 hstep with rfl | hbehind
  · decide
  split_ifs at hbehind
  · rw [List.mem_singleton.1 hbehind]
    decide
  · exact ⟨(hdirect.names step hbehind).notHere, (hdirect.names step hbehind).notAbove⟩

/-- Taken from the canonical path of a directory, a path leads where it leads from there. -/
theorem LeadsTo.from_direct {between : Place} (hdirect : h.tree.Direct between)
    (hpath : PathText.isAbsolute path = false) (hnul : '\x00' ∉ path.toList)
    (hcourse : ∃ links ≤ Tree.maxLinks, h.tree.Leads between (PathText.steps path) links place) :
    h.LeadsTo (PathText.join (Tree.pathOf between) path) place := by
  have hsteps := Tree.steps_join_pathOf hdirect.names hpath
  have habsolute := Tree.isAbsolute_join_pathOf between path
  obtain ⟨links, hlinks, hfrom⟩ := hcourse
  refine ⟨?_, ?_, links, hlinks, ?_⟩
  · intro hempty
    rw [hempty] at habsolute
    cases habsolute
  · rw [← PathText.exists_mem_steps (by decide), hsteps]
    rintro ⟨step, hstep, hmem⟩
    rcases List.mem_cons.1 hstep with rfl | hstep
    · cases hmem
    rcases List.mem_append.1 hstep with hname | hbehind
    · exact ((hdirect.names step hname).plain _ hmem).2 rfl
    · exact hnul ((PathText.exists_mem_steps (by decide)).1 ⟨step, hbehind, hmem⟩)
  · rw [Host.origin, habsolute, if_pos rfl, hsteps]
    exact .stay (.inl rfl) (Tree.Leads.down hdirect hfrom)

/-- A path through another leads over a directory, and from the canonical path of that directory
the rest of it leads to the same place. -/
theorem LeadsTo.divide (hsound : h.Sound) {base rest : String} (hbase : base ≠ "")
    (hrest : PathText.isAbsolute rest = false) (hleads : h.LeadsTo (base ++ "/" ++ rest) place) :
    ∃ between, h.tree.Direct between ∧ h.LeadsTo base between ∧
      h.LeadsTo (PathText.join (Tree.pathOf between) rest) place := by
  obtain ⟨-, hnul, links, hlinks, hcourse⟩ := hleads
  simp only [String.toList_append, List.mem_append, not_or] at hnul
  obtain ⟨⟨hnulBase, -⟩, hnulRest⟩ := hnul
  have horigin : h.origin (base ++ "/" ++ rest) = h.origin base := by
    rw [Host.origin, String.append_assoc, PathText.isAbsolute_append hbase, Host.origin]
  rw [PathText.steps_slash, horigin] at hcourse
  obtain ⟨m, n, between, hdirect, hm, hn, hsum⟩ :=
    hcourse.split hsound.names (hsound.origin base) (PathText.steps_ne_nil rest)
  have hfits : m ≤ Tree.maxLinks ∧ n ≤ Tree.maxLinks := by omega
  exact ⟨between, hdirect, ⟨hbase, hnulBase, m, hfits.1, hm⟩,
    .from_direct hdirect hrest hnulRest ⟨n, hfits.2, hn⟩⟩

/-- A dot leads nowhere else. -/
theorem LeadsTo.here (hdirect : h.tree.Direct place) :
    h.LeadsTo (PathText.join (Tree.pathOf place) ".") place :=
  .from_direct hdirect (by decide) (by decide) ⟨0, Nat.zero_le _, .stay (.inr rfl) .arrived⟩

end Host
end PipeShell
