import Mathlib.Data.List.Forall2
import PipeShell.Proofs.Pipeline.RoundTrip
import PipeShell.Proofs.Text.Lossy
import PipeShell.Proofs.Wire.Calls

/-! Lines that hold a pipeline. Its commands keep to every limit and its texts are made of
characters of the line, so the pipeline can be written, and what is written is a normal form. -/
namespace PipeShell

namespace Pipeline

/-- Every character of the words among some tokens. -/
def MadeOf (P : Char → Prop) (ts : List Token) : Prop := ∀ t, .word t ∈ ts → ∀ c ∈ t.toList, P c

variable {P : Char → Prop} {ts us : List Token} {isFirst : Bool}

theorem madeOf_append (h : MadeOf P ts) (h' : MadeOf P us) : MadeOf P (ts ++ us) := by
  intro t ht
  rcases List.mem_append.1 ht with ht | ht
  · exact h t ht
  · exact h' t ht

theorem madeOf_input (h : MadeOf P ts) : MadeOf P (.input :: ts) := by
  intro t ht
  exact h t (by simpa using ht)

namespace Scan

variable {s : Scan} {c : Char} {cs : List Char}

/-- Every character that a scan has taken up. -/
structure MadeOf (P : Char → Prop) (s : Scan) : Prop where
  word : ∀ w ∈ s.word, ∀ c ∈ w, P c
  stage : Pipeline.MadeOf P s.stage
  stages : ∀ ts ∈ s.stages, Pipeline.MadeOf P ts

namespace MadeOf

theorem pending (h : s.MadeOf P) : Pipeline.MadeOf P s.pending := by
  intro t ht
  cases hw : s.word with
  | none => simp [Scan.pending, hw] at ht
  | some w =>
    obtain rfl : t = String.ofList w.reverse := by simpa [Scan.pending, hw] using ht
    intro c hc
    exact h.word w hw c (by simpa using hc)

theorem endWord (h : s.MadeOf P) : s.endWord.MadeOf P :=
  ⟨by simp [Scan.endWord], madeOf_append h.pending h.stage, h.stages⟩

theorem operator (h : s.MadeOf P) : s.operator.MadeOf P :=
  ⟨h.endWord.word, madeOf_input h.endWord.stage, h.stages⟩

theorem endStage (h : s.MadeOf P) : s.endStage.MadeOf P := by
  refine ⟨h.endWord.word, by simp [Scan.endStage, Pipeline.MadeOf], ?_⟩
  intro ts hts
  rcases List.mem_cons.1 hts with rfl | hts
  · intro t ht
    exact h.endWord.stage t (List.mem_reverse.1 ht)
  · exact h.stages ts hts

theorem soFar (h : s.MadeOf P) : ∀ d ∈ s.word.getD [], P d := by
  cases hw : s.word with
  | none => simp
  | some w => exact h.word w hw

theorem literal (h : s.MadeOf P) (hc : P c) : (s.literal c).MadeOf P := by
  refine ⟨?_, h.stage, h.stages⟩
  rintro w ⟨⟩ d hd
  rcases List.mem_cons.1 hd with rfl | hd
  · exact hc
  · exact h.soFar d hd

theorem quote (h : s.MadeOf P) : s.quote.MadeOf P := by
  refine ⟨?_, h.stage, h.stages⟩
  rintro w ⟨⟩
  exact h.soFar

/-- A scan takes up the characters that it meets, but no quotes. -/
theorem step (h : s.MadeOf P) (hc : c ≠ '"' → P c) : (s.step c).MadeOf P := by
  simp only [Scan.step]
  split
  · exact h.quote
  · case isFalse hq =>
    repeat' split
    · exact h.literal (hc hq)
    · exact h.endWord
    · exact h.operator
    · exact h.endStage
    · exact h.literal (hc hq)

theorem run (h : s.MadeOf P) (hcs : ∀ c ∈ cs, c ≠ '"' → P c) :
    (cs.foldl Scan.step s).MadeOf P := by
  induction cs generalizing s with
  | nil => exact h
  | cons c cs ih =>
    exact ih (h.step (hcs c List.mem_cons_self)) fun d hd => hcs d (List.mem_cons_of_mem c hd)

end MadeOf

end Scan

theorem madeOf_scan {line : List Char} (h : ∀ c ∈ line, c ≠ '"' → P c) (hts : ts ∈ scan line) :
    MadeOf P ts := by
  have hstart : Scan.MadeOf P {} := ⟨by simp, by simp [MadeOf], by simp⟩
  exact (hstart.run h).endStage.stages ts (List.mem_reverse.1 (List.mem_of_mem_filter hts))

theorem word_of_mem_plainWords {w : String} (h : w ∈ plainWords ts) : .word w ∈ ts := by
  fun_induction plainWords ts with
  | case1 => cases h
  | case2 v ts ih =>
    rcases List.mem_cons.1 h with rfl | h
    · exact List.mem_cons_self
    · exact List.mem_cons_of_mem _ (ih h)
  | case3 v ts ih => exact List.mem_cons_of_mem _ (List.mem_cons_of_mem _ (ih h))
  | case4 ts hlone ih => exact List.mem_cons_of_mem _ (ih h)

theorem word_of_mem_targets {w : String} (h : some w ∈ targets ts) : .word w ∈ ts := by
  fun_induction targets ts with
  | case1 => cases h
  | case2 v ts ih => exact List.mem_cons_of_mem _ (ih h)
  | case3 v ts ih =>
    rcases List.mem_cons.1 h with heq | h
    · obtain rfl := Option.some.inj heq
      exact List.mem_cons_of_mem _ List.mem_cons_self
    · exact List.mem_cons_of_mem _ (List.mem_cons_of_mem _ (ih h))
  | case4 ts hlone ih =>
    rcases List.mem_cons.1 h with heq | h
    · cases heq
    · exact List.mem_cons_of_mem _ (ih h)

/-- A stage that gives a command: what the command is made of, and the rules that it keeps. -/
theorem commandOf_eq_ok {c : Command} (h : commandOf isFirst ts = .ok c) :
    ¬ BadRedirect isFirst ts ∧ plainWords ts = c.name :: c.arguments ∧
      c.input = (targets ts).head?.join ∧ c.name ≠ "" ∧ Utf8.size c.name < 64 ∧
      c.arguments.length ≤ 16 ∧ Utf8.size c.argsText < 256 := by
  simp only [commandOf] at h
  split at h
  · cases h
  · case isFalse hbad =>
    split at h
    · cases h
    · case h_2 name arguments hwords =>
      split at h
      · cases h
      · case isFalse hname =>
        split at h
        · cases h
        · case isFalse hsize =>
          obtain rfl := Except.ok.inj h
          obtain ⟨hsize, hlength, hargs⟩ := by simpa only [not_or] using hsize
          refine ⟨hbad, hwords, rfl, hname, Nat.not_le.1 hsize, Nat.not_lt.1 hlength, ?_⟩
          rw [size_argsText]
          exact Nat.not_le.1 hargs

theorem word_of_mem_texts {c : Command} (h : commandOf isFirst ts = .ok c) {t : String}
    (ht : t ∈ c.texts) : .word t ∈ ts := by
  obtain ⟨-, hwords, hinput, -⟩ := commandOf_eq_ok h
  rcases List.mem_append.1 ht with ht | ht
  · exact word_of_mem_plainWords (hwords ▸ ht)
  · have hhead : (targets ts).head?.join = some t := hinput.symm.trans (Option.mem_toList.1 ht)
    exact word_of_mem_targets (List.mem_of_mem_head? (Option.join_eq_some_iff.1 hhead))

theorem fits_of_commandOf {c : Command} (h : commandOf isFirst ts = .ok c)
    (hts : MadeOf (· ≠ '"') ts) : c.Fits := by
  obtain ⟨hbad, -, hinput, hne, hname, hlength, hargs⟩ := commandOf_eq_ok h
  refine ⟨hne, hname, hlength, hargs, ?_, ?_⟩
  · intro t ht hquote
    exact hts t (word_of_mem_texts h ht) '"' hquote rfl
  · intro hempty
    have hhead := Option.join_eq_some_iff.1 (hinput.symm.trans hempty)
    exact hbad (Or.inr (Or.inl (List.mem_of_mem_head? hhead)))

/-- Only a first stage gives a command an input. -/
theorem input_of_commandOf {c : Command} (h : commandOf false ts = .ok c) : c.input = none := by
  obtain ⟨hbad, -, hinput, -⟩ := commandOf_eq_ok h
  have hnone : targets ts = [] := by
    by_contra hne
    exact hbad (Or.inr (Or.inr (Or.inr ⟨rfl, hne⟩)))
  rw [hinput, hnone]
  rfl

theorem mapM_eq_ok {α β ε : Type} {f : α → Except ε β} {as : List α} {bs : List β} :
    as.mapM f = .ok bs ↔ List.Forall₂ (fun a b => f a = .ok b) as bs := by
  induction as generalizing bs with
  | nil =>
    constructor
    · intro h
      obtain rfl : [] = bs := Except.ok.inj h
      exact .nil
    · rintro ⟨⟩
      rfl
  | cons a as ih =>
    rw [List.mapM_cons]
    constructor
    · intro h
      cases ha : f a with
      | error e => simp [ha, bind, Except.bind] at h
      | ok b =>
        cases has : as.mapM f with
        | error e => simp [ha, has, bind, Except.bind] at h
        | ok later =>
          obtain rfl : b :: later = bs := by
            simpa [ha, has, bind, Except.bind, pure, Except.pure] using h
          exact .cons ha (ih.1 has)
    · rintro (_ | ⟨ha, has⟩)
      rw [ha, ih.2 has]
      rfl

/-- Stages that give a pipeline give it command by command. -/
theorem pipelineOf_eq_some {stages : List (List Token)} {p : Pipeline} :
    pipelineOf stages = .ok (some p) ↔ ∃ first rest c cs, stages = first :: rest ∧ p = c :: cs ∧
      stages.length ≤ 8 ∧ commandOf true first = .ok c ∧
      List.Forall₂ (fun ts c => commandOf false ts = .ok c) rest cs := by
  cases stages with
  | nil => simp [pipelineOf]
  | cons first rest =>
    simp only [pipelineOf]
    constructor
    · intro h
      split at h
      · cases h
      · case isFalse hlength =>
        cases hc : commandOf true first with
        | error e => simp [hc, bind, Except.bind] at h
        | ok c =>
          cases hcs : rest.mapM (commandOf false) with
          | error e => simp [hc, hcs, bind, Except.bind] at h
          | ok cs =>
            obtain rfl : c :: cs = p := by simpa [hc, hcs, bind, Except.bind] using h
            exact ⟨first, rest, c, cs, rfl, rfl, Nat.not_lt.1 hlength, hc, mapM_eq_ok.1 hcs⟩
    · rintro ⟨_, _, c, cs, ⟨⟩, rfl, hlength, hc, hcs⟩
      rw [if_neg (Nat.not_lt.2 hlength), hc, mapM_eq_ok.2 hcs]
      rfl

variable {line : String} {p : Pipeline}

theorem exists_of_mem_forall₂ {α β : Type} {R : α → β → Prop} {as : List α} {bs : List β}
    (h : List.Forall₂ R as bs) {b : β} (hb : b ∈ bs) : ∃ a ∈ as, R a b := by
  induction h with
  | nil => cases hb
  | @cons a _ _ _ hab _ ih =>
    rcases List.mem_cons.1 hb with rfl | hb
    · exact ⟨a, List.mem_cons_self, hab⟩
    · obtain ⟨a', ha', hr⟩ := ih hb
      exact ⟨a', List.mem_cons_of_mem a ha', hr⟩

/-- Every command that is read comes from a stage of the line. -/
theorem stage_of_read (h : read line = .ok (some p)) {c : Command} (hc : c ∈ p) :
    ∃ isFirst, ∃ ts ∈ scan (line.toList.rdropWhile isSpace), commandOf isFirst ts = .ok c := by
  rw [read_eq_pipelineOf] at h
  obtain ⟨first, rest, d, ds, hscan, rfl, -, hd, hds⟩ := pipelineOf_eq_some.1 h
  rw [hscan]
  rcases List.mem_cons.1 hc with rfl | hc
  · exact ⟨true, first, List.mem_cons_self, hd⟩
  · obtain ⟨ts, hts, hread⟩ := exists_of_mem_forall₂ hds hc
    exact ⟨false, ts, List.mem_cons_of_mem first hts, hread⟩

/-- The words of a stage are made of characters of the line other than quotes. -/
theorem madeOf_line (line : String) (hts : ts ∈ scan (line.toList.rdropWhile isSpace)) :
    MadeOf (fun d => d ∈ line.toList ∧ d ≠ '"') ts := by
  refine madeOf_scan ?_ hts
  intro d hd hquote
  exact ⟨(List.rdropWhile_prefix isSpace _).subset hd, hquote⟩

theorem mem_line_of_read (h : read line = .ok (some p)) {c : Command} (hc : c ∈ p) {t : String}
    (ht : t ∈ c.texts) {d : Char} (hd : d ∈ t.toList) : d ∈ line.toList := by
  obtain ⟨_, ts, hts, hread⟩ := stage_of_read h hc
  exact (madeOf_line line hts t (word_of_mem_texts hread ht) d hd).1

/-- Whatever is read keeps to the limits. -/
theorem wellFormed_of_read (h : read line = .ok (some p)) : p.WellFormed := by
  have hfits : ∀ c ∈ p, c.Fits := by
    intro c hc
    obtain ⟨_, ts, hts, hread⟩ := stage_of_read h hc
    exact fits_of_commandOf hread fun t ht d hd => (madeOf_line line hts t ht d hd).2
  rw [read_eq_pipelineOf] at h
  obtain ⟨first, rest, c, cs, hscan, rfl, hlength, -, hcs⟩ := pipelineOf_eq_some.1 h
  refine ⟨List.cons_ne_nil c cs, ?_, hfits, ?_⟩
  · rw [hscan, List.length_cons, hcs.length_eq] at hlength
    exact hlength
  · intro d hd
    obtain ⟨ts, -, hread⟩ := exists_of_mem_forall₂ hcs hd
    exact input_of_commandOf hread

end Pipeline

/-- A frame ends at the first NUL, so that its line has none. -/
theorem Frame.noNul_of_ready {bs rest : Bytes} {line : String}
    (h : ready? bs = some (.command line, rest)) : '\x00' ∉ line.toList := by
  rcases ready?_cases bs with ⟨_, hr⟩ | ⟨_, _, hr⟩ | ⟨_, _, hr⟩
  · obtain ⟨rfl, -⟩ := by simpa using hr.symm.trans h
    intro hnul
    rw [Utf8.toStringLossy, String.toList_ofList] at hnul
    have hzero : 0 ∈ bs.take (bs.idxOf 0) := Utf8.ascii_mem_decodeLossy (by decide) hnul
    obtain ⟨i, hi, hget⟩ := List.mem_take_iff_getElem.1 hzero
    have hbefore := List.not_of_lt_findIdx (Nat.lt_of_lt_of_le hi (Nat.min_le_left _ _))
    simp [hget] at hbefore
  · simp [hr] at h
  · simp [hr] at h

theorem FrameReader.noNul_of_next {r : FrameReader} {line : String}
    (h : r.next.1 = .ok (.command line)) : '\x00' ∉ line.toList := by
  obtain ⟨_, _, ⟨f, hf, _, hr⟩ | ⟨hno, _, _⟩⟩ := next_cases r
  · obtain rfl : f = .command line := by simpa using hf.symm.trans h
    exact Frame.noNul_of_ready hr
  · rw [h, frames_ok (by simp)] at hno
    cases hno

namespace Pipeline

/-- A line written anew from the pipeline that it holds. -/
def normalForm (line : String) : Except ReadError (Option String) :=
  (read line).map (Option.map text)

/-- A line that holds a pipeline: its commands keep to every limit and are made of its characters,
so they hold no NUL if the line comes from a frame, and writing them gives a normal form. -/
theorem normalForm_of_read {line : String} {p : Pipeline} (h : read line = .ok (some p)) :
    p.WellFormed ∧
      (∀ c ∈ p, ∀ t ∈ c.texts, ∀ d ∈ t.toList, d ∈ line.toList) ∧
      (∀ r : FrameReader, r.next.1 = .ok (.command line) →
        ∀ c ∈ p, ∀ t ∈ c.texts, '\x00' ∉ t.toList) ∧
      normalForm line = .ok (some (text p)) ∧
      read (text p) = .ok (some p) ∧
      normalForm (text p) = .ok (some (text p)) := by
  have hread := read_text_of_wellFormed (wellFormed_of_read h)
  refine ⟨wellFormed_of_read h, fun c hc t ht d hd => mem_line_of_read h hc ht hd, ?_, ?_, hread,
    ?_⟩
  · intro r hr c hc t ht hnul
    exact FrameReader.noNul_of_next hr (mem_line_of_read h hc ht hnul)
  · rw [normalForm, h]
    rfl
  · rw [normalForm, hread]
    rfl

/-- Quotes inside words, stages without anything, and a quote that is never closed. -/
def crammed : String := "\"a b\"x<\"|\"  \"\" é\"|y\" | || c \"\t"

def crammedPipeline : Pipeline :=
  [{ name := "a bx", arguments := ["", "é|y"], input := some "|" },
    { name := "c", arguments := [""] }]

theorem normalForm_of_read_crammed :
    read crammed = .ok (some crammedPipeline) ∧ crammedPipeline.WellFormed ∧
      normalForm crammed = .ok (some "\"a bx\" \"\" \"é|y\" < \"|\" | c \"\"") ∧
      normalForm (text crammedPipeline) = .ok (some (text crammedPipeline)) := by
  have hread : read crammed = .ok (some crammedPipeline) := by decide +kernel
  obtain ⟨hfits, -, -, hwritten, -, hagain⟩ := normalForm_of_read hread
  exact ⟨hread, hfits, hwritten, hagain⟩

end Pipeline
end PipeShell
