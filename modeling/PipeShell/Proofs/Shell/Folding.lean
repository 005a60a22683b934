import Mathlib.Data.List.Basic
import PipeShell.Shell.State

/-! How the statuses of stages come to one end. Those that ask for the end of the server or of the
session count wherever they stand, all others only at the last place. -/
namespace PipeShell.Status

theorem ofCode_of_ne {code : Int} (hexit : code ≠ 99) (hstop : code ≠ 200) :
    ofCode code = .exited code :=
  (if_neg hexit).trans (if_neg hstop)

theorem ofCode_exited {code shown : Int} (h : ofCode code = .exited shown) :
    shown ≠ 99 ∧ shown ≠ 200 := by
  simp only [ofCode] at h
  split at h
  · cases h
  · case isFalse hexit =>
    split at h
    · cases h
    · case isFalse hstop =>
      obtain rfl := Status.exited.inj h
      exact ⟨hexit, hstop⟩

/-- What the last stage makes of a pipeline none of whose stages asks for an end. -/
theorem ofCode_last {statuses : List Int} (hexit : 99 ∉ statuses) (hstop : 200 ∉ statuses) :
    ofCode (statuses.getLast?.getD 127) = .exited (statuses.getLast?.getD 127) := by
  cases hlast : statuses.getLast? with
  | none => rfl
  | some last =>
    have hmem : last ∈ statuses := List.mem_of_getLast? hlast
    refine ofCode_of_ne ?_ ?_
    · rintro rfl
      exact hexit hmem
    · rintro rfl
      exact hstop hmem

theorem ofStages_eq (statuses : List Int) : ofStages statuses =
    if 200 ∈ statuses then .stopServer
    else if 99 ∈ statuses then .exit
    else .exited (statuses.getLast?.getD 127) := by
  simp only [ofStages, List.contains_iff_mem, exitCode, stopServerCode]
  by_cases hstop : 200 ∈ statuses
  · simp only [if_pos hstop]
    rfl
  · simp only [if_neg hstop]
    by_cases hexit : 99 ∈ statuses
    · simp only [if_pos hexit]
      rfl
    · simp only [if_neg hexit]
      exact ofCode_last hexit hstop

theorem ofStages_eq_stopServer {statuses : List Int} :
    ofStages statuses = .stopServer ↔ 200 ∈ statuses := by
  rw [ofStages_eq]
  constructor
  · intro h
    split at h
    · case isTrue hstop => exact hstop
    · split at h <;> cases h
  · intro h
    exact if_pos h

theorem ofStages_eq_exit {statuses : List Int} :
    ofStages statuses = .exit ↔ 200 ∉ statuses ∧ 99 ∈ statuses := by
  rw [ofStages_eq]
  constructor
  · intro h
    split at h
    · cases h
    · case isFalse hstop =>
      split at h
      · case isTrue hexit => exact ⟨hstop, hexit⟩
      · cases h
  · rintro ⟨hstop, hexit⟩
    exact (if_neg hstop).trans (if_pos hexit)

/-- A pipeline never ends as exited with a status that asks for the end of anything. -/
theorem ofStages_exited {statuses : List Int} {code : Int} (h : ofStages statuses = .exited code) :
    code ≠ 99 ∧ code ≠ 200 := by
  simp only [ofStages] at h
  exact ofCode_exited h

/-- The end of stages in two parts. -/
theorem ofStages_append (first : List Int) {second : List Int} (h : second ≠ []) :
    ofStages (first ++ second) =
      if ofStages first = .stopServer ∨ ofStages second = .stopServer then .stopServer
      else if ofStages first = .exit ∨ ofStages second = .exit then .exit
      else ofStages second := by
  simp only [ofStages_eq_stopServer, ofStages_eq_exit]
  by_cases hstop : 200 ∈ first ∨ 200 ∈ second
  · rw [if_pos hstop, ofStages_eq_stopServer]
    exact List.mem_append.2 hstop
  · obtain ⟨hfirst, hsecond⟩ := not_or.1 hstop
    rw [if_neg hstop]
    by_cases hexit : 99 ∈ first ∨ 99 ∈ second
    · rw [if_pos, ofStages_eq_exit]
      · exact ⟨fun hmem => hstop (List.mem_append.1 hmem), List.mem_append.2 hexit⟩
      · rcases hexit with hexit | hexit
        · exact Or.inl ⟨hfirst, hexit⟩
        · exact Or.inr ⟨hsecond, hexit⟩
    · obtain ⟨hfirst', hsecond'⟩ := not_or.1 hexit
      have hlast : (first ++ second).getLast? = second.getLast? := by
        rw [List.getLast?_append_of_ne_nil _ h]
      rw [if_neg]
      · simp only [ofStages_eq, List.mem_append, hfirst, hfirst', hsecond, hsecond', hlast,
          or_false, if_false]
      · rintro (⟨-, hmem⟩ | ⟨-, hmem⟩)
        · exact hfirst' hmem
        · exact hsecond' hmem

/-- A status before others that asks for the end of nothing makes no difference. -/
theorem ofStages_cons {status : Int} {statuses : List Int} (hexit : status ≠ 99)
    (hstop : status ≠ 200) (hne : statuses ≠ []) :
    ofStages (status :: statuses) = ofStages statuses := by
  have hmem : ∀ code, status ≠ code → (code ∈ status :: statuses ↔ code ∈ statuses) := by
    intro code hcode
    rw [List.mem_cons]
    exact or_iff_right hcode.symm
  obtain ⟨next, rest, rfl⟩ := List.exists_cons_of_ne_nil hne
  rw [ofStages_eq, ofStages_eq]
  simp only [hmem 200 hstop, hmem 99 hexit, List.getLast?_cons_cons]

/-- Nor does such a status within a list. -/
theorem ofStages_within {status : Int} (hexit : status ≠ 99) (hstop : status ≠ 200)
    (front : List Int) {later : List Int} (hne : later ≠ []) :
    ofStages (front ++ status :: later) = ofStages (front ++ later) := by
  rw [ofStages_append front (List.cons_ne_nil _ _), ofStages_append front hne,
    ofStages_cons hexit hstop hne]

end PipeShell.Status
