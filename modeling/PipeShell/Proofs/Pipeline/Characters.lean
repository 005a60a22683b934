import PipeShell.Proofs.Pipeline.Marks
import PipeShell.Proofs.Pipeline.Scan

/-! The scan of a line by bytes and by characters. Every mark is a single byte and no other
character has such a byte, so all that the scan takes out of a line begins and ends between
characters. -/
namespace PipeShell.Pipeline

open Utf8 (encode encodeChar)

/-- The marks as characters. -/
def Marks.characters : Marks Char where
  quote := (· == '"')
  bar := (· == '|')
  redirect := (· == '<')
  space := isSpace

/-- A token, when the letters of a word are characters. -/
def Lexeme.text : Lexeme Char → Token
  | .word letters => .word (String.ofList letters)
  | .input => .input

/-- A slice of the bytes of a text that begins and ends between characters. -/
def Slice.Between (s : Slice) (cs : List Char) : Prop :=
  ∃ before within after, cs = before ++ within ++ after ∧ s.start = (encode before).length ∧
    s.stop = (encode (before ++ within)).length

variable {c : Char} {cs : List Char} {b : UInt8}

/-- A byte of a character means what the character means. -/
structure Alike (b : UInt8) (c : Char) : Prop where
  quote : Marks.bytes.quote b = Marks.characters.quote c
  bar : Marks.bytes.bar b = Marks.characters.bar c
  redirect : Marks.bytes.redirect b = Marks.characters.redirect c
  space : Marks.bytes.space b = Marks.characters.space c

theorem alike_of_mem (hb : b ∈ encodeChar c) : Alike b c := by
  refine ⟨?_, ?_, ?_, isSeparator_eq_isSpace hb⟩
  · rw [Bool.eq_iff_iff]
    simpa [Marks.bytes, Marks.characters] using eq_quote_iff hb
  · rw [Bool.eq_iff_iff]
    simpa [Marks.bytes, Marks.characters] using eq_bar_iff hb
  · rw [Bool.eq_iff_iff]
    simpa [Marks.bytes, Marks.characters] using eq_redirect_iff hb

/-- A character is a single byte, or it has no meaning and neither have its bytes. -/
theorem byte_or_plain (c : Char) : (∃ b, encodeChar c = [b] ∧ Alike b c) ∨
    (Marks.characters.Plain c ∧ ∀ b ∈ encodeChar c, Marks.bytes.Plain b) := by
  by_cases hc : c.toNat < 0x80
  · have hbyte := Utf8.encodeChar_ascii hc
    exact Or.inl ⟨_, hbyte, alike_of_mem (by rw [hbyte]; exact List.mem_singleton_self _)⟩
  · have hplain : Marks.characters.Plain c := by
      constructor <;> rw [Bool.eq_false_iff] <;> intro hmark
      · obtain rfl : c = '"' := by simpa [Marks.characters] using hmark
        exact hc (by decide)
      · obtain rfl : c = '|' := by simpa [Marks.characters] using hmark
        exact hc (by decide)
      · obtain rfl : c = '<' := by simpa [Marks.characters] using hmark
        exact hc (by decide)
      · exact hc (Scan.ascii_of_special (Or.inl hmark))
    refine Or.inr ⟨hplain, ?_⟩
    intro b hb
    have halike := alike_of_mem hb
    exact ⟨halike.quote.trans hplain.quote, halike.bar.trans hplain.bar,
      halike.redirect.trans hplain.redirect, halike.space.trans hplain.space⟩

theorem stages_encode (q : Bool) (cs : List Char) :
    Marks.bytes.stages q (encode cs) = (Marks.characters.stages q cs).map encode := by
  induction cs generalizing q with
  | nil => rfl
  | cons c cs ih =>
    have hhead : ∀ l : List (List Char), (l.map encode).modifyHead (encodeChar c ++ ·) =
        (l.modifyHead (c :: ·)).map encode := by
      intro l
      cases l <;> rfl
    rw [Utf8.encode_cons]
    rcases byte_or_plain c with ⟨b, hbyte, halike⟩ | ⟨hplain, hbytes⟩
    · rw [hbyte] at hhead ⊢
      rw [List.singleton_append, Marks.stages, Marks.stages, halike.bar, halike.quote]
      split
      · rw [ih, List.map_cons]
        rfl
      · rw [ih]
        exact hhead _
    · rw [Marks.stages_plain hbytes, ih, hhead, Marks.stages, hplain.bar, hplain.quote]
      simp only [Bool.false_and, Bool.false_eq_true, if_false, Bool.bne_false]

theorem dropWhile_encode (cs : List Char) :
    (encode cs).dropWhile isSeparator = encode (cs.dropWhile isSpace) := by
  induction cs with
  | nil => rfl
  | cons c cs ih =>
    obtain ⟨b, bs, hbytes⟩ := List.exists_cons_of_ne_nil (Utf8.encodeChar_ne_nil c)
    have hb : isSeparator b = isSpace c := isSeparator_eq_isSpace (by rw [hbytes]; simp)
    rw [Utf8.encode_cons]
    cases hc : isSpace c with
    | true =>
      have hone : encodeChar c = [c.toNat.toUInt8] :=
        Utf8.encodeChar_ascii (Scan.ascii_of_special (Or.inl hc))
      obtain ⟨rfl, rfl⟩ := List.cons.inj (hbytes.symm.trans hone)
      rw [List.dropWhile_cons_of_pos hc, hone, List.singleton_append,
        List.dropWhile_cons_of_pos (hb.trans hc), ih]
    | false =>
      rw [List.dropWhile_cons_of_neg (by simp [hc]), hbytes, List.cons_append,
        List.dropWhile_cons_of_neg (by simp [hb, hc]), Utf8.encode_cons, hbytes, List.cons_append]

theorem trim_encode (cs : List Char) :
    Marks.bytes.trim (encode cs) = encode (Marks.characters.trim cs) := by
  have hright := Scan.trimRight_encode (cs.dropWhile isSpace)
  rw [← dropWhile_encode] at hright
  exact hright

theorem encode_eq_nil : encode cs = [] ↔ cs = [] := by
  cases cs with
  | nil => exact ⟨fun _ => rfl, fun _ => rfl⟩
  | cons c cs => simp [Utf8.encode_cons, Utf8.encodeChar_ne_nil]

theorem kept_encode (cs : List Char) :
    Marks.bytes.kept (encode cs) = (Marks.characters.kept cs).map encode := by
  have htrim : Marks.bytes.trim ∘ encode = encode ∘ Marks.characters.trim := by
    funext stage
    exact trim_encode stage
  have hempty : (fun bs : Bytes => !bs.isEmpty) ∘ encode = fun stage => !stage.isEmpty := by
    funext stage
    rw [Function.comp, Bool.eq_iff_iff]
    simp [encode_eq_nil]
  rw [Marks.kept, Marks.kept, stages_encode, List.map_map, htrim, ← List.map_map, List.filter_map,
    hempty]

/-- What has been read of a word of characters, as bytes, latest first as well. -/
def bytesOf (word : List Char × Bool) : Bytes × Bool := ((encode word.1.reverse).reverse, word.2)

theorem bytesOf_read (read : List Char) (q : Bool) (c : Char) :
    bytesOf (c :: read, q) = ((encodeChar c).reverse ++ (bytesOf (read, q)).1, q) := by
  simp [bytesOf, Utf8.encode]

/-- A character that is a single byte moves both scans alike. -/
theorem lexemes_byte {cs : List Char} (hbyte : encodeChar c = [b]) (halike : Alike b c)
    (ih : ∀ word, Marks.bytes.lexemes (word.map bytesOf) (encode cs) =
      (Marks.characters.lexemes word cs).map (Lexeme.map encode))
    (word : Option (List Char × Bool)) :
    Marks.bytes.lexemes (word.map bytesOf) (b :: encode cs) =
      (Marks.characters.lexemes word (c :: cs)).map (Lexeme.map encode) := by
  cases word with
  | none =>
    have hone : bytesOf ([c], false) = ([b], false) := by simp [bytesOf, encode, hbyte]
    rw [Option.map_none, Marks.lexemes, Marks.lexemes, halike.space, halike.redirect, halike.quote]
    split
    · exact ih none
    split
    · exact congrArg (.input :: ·) (ih none)
    split
    · exact ih (some ([], true))
    · rw [← hone]
      exact ih (some ([c], false))
  | some word =>
    obtain ⟨read, q⟩ := word
    have hpair : (some (read, q)).map bytesOf = some ((bytesOf (read, q)).1, q) := rfl
    have hword : .word (bytesOf (read, q)).1.reverse = Lexeme.map encode (.word read.reverse) := by
      simp [bytesOf, Lexeme.map]
    have hread : (b :: (bytesOf (read, q)).1, q) = bytesOf (c :: read, q) := by
      rw [bytesOf_read, hbyte]
      rfl
    rw [hpair, Marks.lexemes, Marks.lexemes, halike.space, halike.redirect, halike.quote, hword,
      hread]
    split
    · exact ih (some (read, !q))
    split
    · exact congrArg (_ :: ·) (ih none)
    split
    · exact congrArg (_ :: .input :: ·) (ih none)
    · exact ih (some (c :: read, q))

theorem lexemes_encode (word : Option (List Char × Bool)) (cs : List Char) :
    Marks.bytes.lexemes (word.map bytesOf) (encode cs) =
      (Marks.characters.lexemes word cs).map (Lexeme.map encode) := by
  induction cs generalizing word with
  | nil =>
    cases word with
    | none => rfl
    | some word => simp [Marks.lexemes, bytesOf, Lexeme.map, encode]
  | cons c cs ih =>
    rw [Utf8.encode_cons]
    rcases byte_or_plain c with ⟨b, hbyte, halike⟩ | ⟨hplain, hbytes⟩
    · rw [hbyte]
      exact lexemes_byte hbyte halike ih word
    · have hletter : ∀ d ∈ [c], Marks.characters.Plain d := by simpa using hplain
      cases word with
      | none =>
        have hone : bytesOf ([c], false) = ((encodeChar c).reverse, false) := by
          simp [bytesOf, encode]
        have hcharacters := Marks.lexemes_plain_between hletter (List.cons_ne_nil c []) cs
        rw [Option.map_none, Marks.lexemes_plain_between hbytes (Utf8.encodeChar_ne_nil c), ← hone]
        exact (ih (some ([c], false))).trans (congrArg _ hcharacters.symm)
      | some word =>
        obtain ⟨read, q⟩ := word
        have hpair : (some (read, q)).map bytesOf = some ((bytesOf (read, q)).1, q) := rfl
        have hcharacters := Marks.lexemes_plain_word hletter read q cs
        rw [hpair, Marks.lexemes_plain_word hbytes, ← bytesOf_read]
        exact (ih (some (c :: read, q))).trans (congrArg _ hcharacters.symm)

theorem token_map_encode (l : Lexeme Char) : (l.map encode).token = l.text := by
  cases l with
  | word letters => exact congrArg Token.word (Utf8.toStringLossy_encode letters)
  | input => rfl

/-- A stage of characters: the tokens of its bytes are its own. -/
theorem tokens_encode (cs : List Char) :
    tokens .between (encode cs) = (Marks.characters.lexemes none cs).map Lexeme.text := by
  have hbytes := lexemes_encode none cs
  have htokens : Lexeme.token ∘ Lexeme.map encode = Lexeme.text := by
    funext l
    exact token_map_encode l
  rw [tokens_eq_lexemes, Cursor.word?, ← Option.map_none, hbytes, List.map_map, htokens]

/-- The slices of the stages, from a place behind the characters `before` and those of the stage. -/
theorem between_stageSlices (q : Bool) (before stage cs : List Char) :
    ∀ s ∈ Marks.bytes.stageSlices q (encode before).length (encode (before ++ stage)).length
      (encode cs), s.Between (before ++ stage ++ cs) := by
  induction cs generalizing q before stage with
  | nil =>
    intro s hs
    obtain rfl := List.mem_singleton.1 hs
    exact ⟨before, stage, [], rfl, rfl, rfl⟩
  | cons c cs ih =>
    have hline : before ++ stage ++ c :: cs = before ++ (stage ++ [c]) ++ cs := by simp
    have hplace : (encode (before ++ stage)).length + (encodeChar c).length =
        (encode (before ++ (stage ++ [c]))).length := by
      rw [← List.append_assoc, Utf8.encode_append (before ++ stage), List.length_append]
      simp [encode]
    rw [Utf8.encode_cons]
    rcases byte_or_plain c with ⟨b, hbyte, halike⟩ | ⟨hplain, hbytes⟩
    · rw [hbyte] at hplace ⊢
      intro s hs
      rw [List.singleton_append, Marks.stageSlices] at hs
      split at hs
      · rcases List.mem_cons.1 hs with rfl | hs
        · exact ⟨before, stage, c :: cs, rfl, rfl, rfl⟩
        · have hrest := ih q (before ++ (stage ++ [c])) []
          rw [List.append_nil, ← hplace, ← hline] at hrest
          exact hrest s hs
      · have hrest := ih (q != Marks.bytes.quote b) before (stage ++ [c])
        rw [← hplace, ← hline] at hrest
        exact hrest s hs
    · rw [Marks.stageSlices_plain hbytes, hplace, hline]
      exact ih q before (stage ++ [c])

theorem between_trimSlice (cs : List Char) : (Marks.bytes.trimSlice (encode cs)).Between cs := by
  have hfirst : cs.takeWhile isSpace ++ cs.dropWhile isSpace = cs := List.takeWhile_append_dropWhile
  have hlast : Marks.characters.trim cs ++ (cs.dropWhile isSpace).rtakeWhile isSpace =
      cs.dropWhile isSpace := List.rdropWhile_append_rtakeWhile
  have hsplit := congrArg (fun l => (encode l).length) hfirst
  simp only [Utf8.encode_append, List.length_append] at hsplit
  have hstart : (Marks.bytes.trimSlice (encode cs)).start =
      (encode (cs.takeWhile isSpace)).length := by
    have hdropped := congrArg List.length (dropWhile_encode cs)
    have hle : (encode cs).findIdx (!isSeparator ·) ≤ (encode cs).length := List.findIdx_le_length
    rw [List.dropWhile_eq_drop_findIdx_not, List.length_drop] at hdropped
    simp only [Marks.trimSlice, Marks.bytes]
    omega
  have hstop := Slice.length_of? (Marks.of?_trimSlice (m := Marks.bytes) (encode cs))
  rw [trim_encode, hstart, ← List.length_append, ← Utf8.encode_append] at hstop
  refine ⟨cs.takeWhile isSpace, Marks.characters.trim cs, (cs.dropWhile isSpace).rtakeWhile isSpace,
    ?_, hstart, hstop⟩
  rw [List.append_assoc, hlast, hfirst]

/-- A word in a stage of characters is collected as the bytes of whole characters. -/
theorem whole_of_mem_lexemes {read : Bytes}
    (h : .word read ∈ Marks.bytes.lexemes none (encode cs)) :
    ∃ letters, read = encode letters ∧ none ∉ Utf8.pieces none read ∧
      Utf8.decode? read = some letters ∧ Utf8.toStringLossy read = String.ofList letters := by
  rw [← Option.map_none, lexemes_encode none cs] at h
  obtain ⟨l, -, hl⟩ := List.mem_map.1 h
  cases l with
  | input => cases hl
  | word letters =>
    obtain rfl := Lexeme.word.inj hl
    refine ⟨letters, rfl, ?_, Utf8.decode?_encode letters, Utf8.toStringLossy_encode letters⟩
    rw [Utf8.pieces_encode]
    simp

/-- A line of characters is scanned by its bytes without harm. All slices are in range and fall
between characters, and every word is collected as the bytes of whole characters, so that nothing
is replaced when it is read as text. The tokens are those of the same scan of the characters. -/
theorem scanned_whole (line : String) :
    (Marks.bytes.stageSlices false 0 0 (Utf8.ofString line)).mapM (·.of? (Utf8.ofString line)) =
        some (splitStages false (Utf8.ofString line)) ∧
      (∀ s ∈ Marks.bytes.stageSlices false 0 0 (Utf8.ofString line), s.Between line.toList) ∧
      (∀ stage ∈ splitStages false (Utf8.ofString line), ∃ cs, stage = encode cs ∧
        (Marks.bytes.trimSlice stage).of? stage = some (trimStage stage) ∧
        (Marks.bytes.trimSlice stage).Between cs) ∧
      (∀ stage ∈ keptStages (Utf8.ofString line),
        tokens .between stage = (Marks.bytes.lexemes none stage).map Lexeme.token ∧
        ∀ read, .word read ∈ Marks.bytes.lexemes none stage → ∃ cs, read = encode cs ∧
          none ∉ Utf8.pieces none read ∧ Utf8.decode? read = some cs ∧
          Utf8.toStringLossy read = String.ofList cs) ∧
      (keptStages (Utf8.ofString line)).map (tokens .between) =
        (Marks.characters.kept line.toList).map fun stage =>
          (Marks.characters.lexemes none stage).map Lexeme.text := by
  have hkept : keptStages (Utf8.ofString line) =
      (Marks.characters.kept line.toList).map encode :=
    (keptStages_eq_kept _).trans (kept_encode line.toList)
  refine ⟨?_, between_stageSlices false [] [] line.toList, ?_, ?_, ?_⟩
  · rw [splitStages_eq_stages]
    exact Marks.of?_stages _
  · intro stage hstage
    rw [splitStages_eq_stages, Utf8.ofString, stages_encode] at hstage
    obtain ⟨cs, -, rfl⟩ := List.mem_map.1 hstage
    exact ⟨cs, rfl, Marks.of?_trimSlice _, between_trimSlice cs⟩
  · intro stage hstage
    rw [hkept] at hstage
    obtain ⟨cs, -, rfl⟩ := List.mem_map.1 hstage
    exact ⟨tokens_eq_lexemes .between _, fun read hread => whole_of_mem_lexemes hread⟩
  · rw [hkept, List.map_map]
    exact List.map_congr_left fun stage _ => tokens_encode stage

end PipeShell.Pipeline
