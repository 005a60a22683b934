import Mathlib.Data.List.Basic
import PipeShell.Process.Program

/-! What a program takes of its input. It leaves the end of it, and a program that leaves all of
it does the same when there is none. -/
namespace PipeShell

namespace Invocation

variable {arguments : List String} {directory : String}

theorem perform_suffix (guarded : List Nat) (actions : List Action) (input : Bytes) :
    (perform arguments directory guarded actions input).rest <:+ input := by
  induction actions generalizing guarded input with
  | nil => exact List.suffix_rfl
  | cons action actions ih =>
    cases action with
    | copy => exact (ih guarded []).trans List.nil_suffix
    | upper => exact (ih guarded []).trans List.nil_suffix
    | count => exact (ih guarded []).trans List.nil_suffix
    | drain => exact (ih guarded []).trans List.nil_suffix
    | take n => exact (ih guarded (input.drop n)).trans (List.drop_suffix n input)
    | output bytes => exact ih guarded input
    | errors bytes => exact ih guarded input
    | fill n => exact ih guarded input
    | arguments => exact ih guarded input
    | directory root => exact ih guarded input
    | exit code => exact List.suffix_rfl
    | kill signal =>
      simp only [perform]
      split
      · exact List.suffix_rfl
      · split
        · exact ih guarded input
        · split
          · exact ih (guarded.erase signal) input
          · exact List.suffix_rfl
    | become behaviour => exact behaviour.suffix arguments directory input

theorem perform_nil_rest (guarded : List Nat) (actions : List Action) :
    (perform arguments directory guarded actions []).rest = [] :=
  List.suffix_nil.1 (perform_suffix guarded actions [])

/-- What has been taken off the input cannot be left of it. -/
theorem perform_rest_ne (guarded : List Nat) (actions : List Action) {later input : Bytes}
    (h : later.length < input.length) :
    (perform arguments directory guarded actions later).rest ≠ input := by
  intro he
  have hle := List.IsSuffix.length_le (he ▸ perform_suffix guarded actions later)
  omega

/-- A program that leaves all of its input does what it does without any. -/
theorem perform_idle {guarded : List Nat} {actions : List Action} {input : Bytes}
    (h : (perform arguments directory guarded actions input).rest = input) :
    perform arguments directory guarded actions input =
      { perform arguments directory guarded actions [] with rest := input } := by
  rcases Nat.eq_zero_or_pos input.length with hzero | hpos
  · obtain rfl := List.eq_nil_of_length_eq_zero hzero
    exact congrArg (fun rest => { perform arguments directory guarded actions [] with rest })
      (perform_nil_rest guarded actions)
  · have hempty : ([] : Bytes).length < input.length := hpos
    induction actions generalizing guarded with
    | nil => rfl
    | cons action actions ih =>
      cases action with
      | copy => exact (perform_rest_ne guarded actions hempty h).elim
      | upper => exact (perform_rest_ne guarded actions hempty h).elim
      | count => exact (perform_rest_ne guarded actions hempty h).elim
      | drain => exact (perform_rest_ne guarded actions hempty h).elim
      | take n =>
        cases n with
        | zero => exact congrArg (Run.after .output []) (ih h)
        | succ n =>
          have hdrop : (input.drop (n + 1)).length < input.length := by
            rw [List.length_drop]
            omega
          exact (perform_rest_ne guarded actions hdrop h).elim
      | output bytes => exact congrArg (Run.after .output bytes) (ih h)
      | errors bytes => exact congrArg (Run.after .errors bytes) (ih h)
      | fill n => exact congrArg (Run.after .output _) (ih h)
      | arguments => exact congrArg (Run.after .output _) (ih h)
      | directory root => exact congrArg (Run.after .output _) (ih h)
      | exit code => rfl
      | kill signal =>
        simp only [perform] at h ⊢
        split
        · case isTrue => rfl
        · case isFalse hnamed =>
          rw [if_neg hnamed] at h
          split
          · case isTrue hspared =>
            rw [if_pos hspared] at h
            exact ih h
          · case isFalse hspared =>
            rw [if_neg hspared] at h
            split
            · case isTrue hguarded =>
              rw [if_pos hguarded] at h
              exact ih h
            · case isFalse => rfl
      | become behaviour => exact behaviour.idle arguments directory input h

/-- What a run takes off its input comes before what it leaves. -/
theorem run_suffix (program : Invocation) (input : Bytes) : (program.run input).rest <:+ input :=
  perform_suffix _ _ _

theorem run_idle {program : Invocation} {input : Bytes} (h : (program.run input).rest = input) :
    program.run input = { program.run [] with rest := input } :=
  perform_idle h

end Invocation
end PipeShell
