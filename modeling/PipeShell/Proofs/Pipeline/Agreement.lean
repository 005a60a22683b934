import PipeShell.Proofs.Pipeline.Scan

/-! The rules of a command. Checking the operators of a stage as they come and checking them all
at once give the same verdict, so that both readers give the same answer on every line. -/
namespace PipeShell.Pipeline

/-- What is wrong with the operators of the rest of a stage, where `input` is the file so far: once
a file is named, any further operator. -/
def BadRest (isFirst : Bool) (input : Option String) (ts : List Token) : Prop :=
  BadRedirect isFirst ts ∨ (input.isSome = true ∧ targets ts ≠ [])

instance (isFirst : Bool) (input : Option String) (ts : List Token) :
    Decidable (BadRest isFirst input ts) :=
  inferInstanceAs (Decidable (_ ∨ _ ∧ _))

theorem targets_lone {ts : List Token} (h : ∀ w us, ts = .word w :: us → False) :
    targets (.input :: ts) = none :: targets ts := by
  cases ts with
  | nil => rfl
  | cons t us =>
    cases t with
    | word w => exact (h w us rfl).elim
    | input => rfl

theorem gather_eq (isFirst : Bool) (input : Option String) (ts : List Token) :
    gather isFirst input ts =
      if BadRest isFirst input ts then .error .badRedirect
      else .ok (plainWords ts, input.or (targets ts).head?.join) := by
  fun_induction gather isFirst input ts with
  | case1 input =>
    have hn : ¬ BadRest isFirst input [] := by simp [BadRest, BadRedirect, targets]
    rw [if_neg hn]
    simp [plainWords, targets]
  | case2 input w ts ih =>
    have hbad : BadRest isFirst input (.word w :: ts) ↔ BadRest isFirst input ts := Iff.rfl
    rw [ih]
    simp only [hbad]
    split <;> rfl
  | case3 input w ts hok ih =>
    -- the first operator of a first stage, with a file behind it
    obtain ⟨⟨rfl, rfl⟩, hw⟩ : (isFirst = true ∧ input = none) ∧ ¬ w = "" := by simpa using hok
    have hbad : BadRest true none (.input :: .word w :: ts) ↔ BadRest true (some w) ts := by
      simp only [BadRest, BadRedirect, targets]
      cases targets ts <;> simp [Ne.symm hw]
    rw [ih]
    simp only [hbad]
    rfl
  | case4 input w ts hno =>
    have hbad : BadRest isFirst input (.input :: .word w :: ts) := by
      have hne : targets (.input :: .word w :: ts) ≠ [] := List.cons_ne_nil _ _
      cases hf : isFirst with
      | false => exact Or.inl (Or.inr (Or.inr (Or.inr ⟨rfl, hne⟩)))
      | true =>
        cases input with
        | some file => exact Or.inr ⟨rfl, hne⟩
        | none =>
          obtain rfl : w = "" := by simpa [hf] using hno
          exact Or.inl (Or.inr (Or.inl List.mem_cons_self))
    rw [if_pos hbad]
  | case5 input ts hne =>
    have hbad : BadRest isFirst input (.input :: ts) := by
      refine Or.inl (Or.inl ?_)
      rw [targets_lone hne]
      exact List.mem_cons_self
    rw [if_pos hbad]

/-- A space before each of some texts is one byte for each. -/
theorem sum_spaced (ts : List String) :
    (ts.map fun t => Utf8.size " " + Utf8.size t).sum = ts.length + (ts.map Utf8.size).sum := by
  have hspace : Utf8.size " " = 1 := rfl
  induction ts with
  | nil => rfl
  | cons t ts ih =>
    simp only [List.map_cons, List.sum_cons, List.length_cons, ih]
    omega

theorem size_argsText (c : Command) : Utf8.size c.argsText = joinedSize c.arguments := by
  rw [Command.argsText, joinedSize]
  cases c.arguments with
  | nil => rfl
  | cons t ts =>
    rw [Utf8.size_intercalate, sum_spaced, List.map_cons, List.sum_cons, List.length_cons]
    omega

theorem tooBig_iff (c : Command) : tooBig c = true ↔
    64 ≤ Utf8.size c.name ∨ 16 < c.arguments.length ∨ 256 ≤ joinedSize c.arguments := by
  rw [← size_argsText]
  simp only [tooBig, Bool.or_eq_true, decide_eq_true_iff, or_assoc]
  rfl

theorem readCommand_eq (isFirst : Bool) (stage : Bytes) :
    readCommand isFirst stage = commandOf isFirst (tokens .between stage) := by
  have hbad : BadRest isFirst none (tokens .between stage) ↔
      BadRedirect isFirst (tokens .between stage) := by
    simp [BadRest]
  rw [readCommand, gather_eq]
  simp only [hbad, commandOf]
  split
  · rfl
  · cases hw : plainWords (tokens .between stage) with
    | nil => rfl
    | cons name arguments =>
      simp only [bind, Except.bind, Option.none_or, tooBig_iff, beq_iff_eq]

/-- A line is read by the tokens of its stages alone. -/
theorem readBytes_eq (line : Bytes) :
    readBytes line = pipelineOf ((keptStages line).map (tokens .between)) := by
  have hread : readCommand false = commandOf false ∘ tokens .between := by
    funext stage
    exact readCommand_eq false stage
  rw [readBytes]
  cases keptStages line with
  | nil => rfl
  | cons s ss =>
    simp only [pipelineOf, List.map_cons, List.length_cons, List.length_map, List.mapM_map,
      readCommand_eq, hread, maxCommands]

/-- A line feed behind a line, even behind an open quote, makes no difference. -/
theorem read_append_newline (line : String) : read (line ++ "\n") = read line := by
  have hbytes : Utf8.ofString (line ++ "\n") = Utf8.ofString line ++ [0x0A] := by
    rw [Utf8.ofString, String.toList_append, Utf8.encode_append]
    rfl
  have hfeed : ∀ b ∈ ([0x0A] : Bytes), isSeparator b = true := by
    intro b hb
    obtain rfl := List.mem_singleton.1 hb
    rfl
  rw [read, read, hbytes, readBytes_eq, readBytes_eq, map_tokens_keptStages,
    map_tokens_keptStages, trimRight_append hfeed]

/-- What a line gives is told by the stages that the scan finds. -/
theorem read_eq_pipelineOf (line : String) :
    read line = pipelineOf (scan (line.toList.rdropWhile isSpace)) := by
  rw [read, Utf8.ofString, readBytes_eq, tokens_keptStages_encode]

/-- Cutting a line into stages and scanning it in one pass give the same pipeline or error. -/
theorem read_eq_readOnePass (line : String) : read line = readOnePass line :=
  read_eq_pipelineOf line

end PipeShell.Pipeline
