import PipeShell.Proofs.Wire.Flowing
import PipeShell.Service.Session

/-! Calling for answers again and again. The answers are what stands between the end bytes of the
stream; the last one closes it, and every call behind that finds nothing more. -/
namespace PipeShell

namespace Response

/-- The answers in a byte string: one before each end byte, and the closing one behind the last. -/
def split (bs : Bytes) : List Response :=
  (bs.splitOn 0x04).dropLast.map (⟨·, false⟩) ++ [⟨(bs.splitOn 0x04).getLastD [], true⟩]

variable {bs rest : Bytes} {r : Response}

/-- What is at the head of the bytes: all before the first end byte, or nothing if there is none. -/
theorem ready?_cases (bs : Bytes) :
    (∃ body rest, bs = body ++ responseEnd :: rest ∧ responseEnd ∉ body ∧
      ready? bs = some (⟨body, false⟩, rest)) ∨
    (responseEnd ∉ bs ∧ ready? bs = none) := by
  by_cases hmem : responseEnd ∈ bs
  · obtain ⟨body, rest, rfl, hbody⟩ := List.eq_append_cons_of_mem hmem
    exact Or.inl ⟨body, rest, rfl, hbody, ready?_body hbody rest⟩
  · exact Or.inr ⟨hmem, ready?_eq_none hmem⟩

theorem split_of_ready (h : ready? bs = some (r, rest)) : split bs = r :: split rest := by
  rcases ready?_cases bs with ⟨body, later, rfl, hbody, hr⟩ | ⟨-, hr⟩
  · obtain ⟨rfl, rfl⟩ := Prod.mk.inj (Option.some.inj (hr.symm.trans h))
    have hcons : (body ++ responseEnd :: later).splitOn 0x04 = body :: later.splitOn 0x04 :=
      List.splitOn_append_cons_self_of_not_mem hbody later
    obtain ⟨piece, pieces, hlater⟩ := List.exists_cons_of_ne_nil (List.splitOn_ne_nil 0x04 later)
    simp only [split, hcons, hlater, List.dropLast_cons_cons, List.map_cons, List.cons_append,
      List.getLastD_cons]
  · rw [hr] at h
    cases h

theorem split_of_not_ready (h : ready? bs = none) : split bs = [⟨bs, true⟩] := by
  rcases ready?_cases bs with ⟨body, rest, -, -, hr⟩ | ⟨hbs, -⟩
  · rw [hr] at h
    cases h
  · have hone : bs.splitOn 0x04 = [bs] := List.splitOn_eq_singleton hbs
    simp only [split, hone]
    rfl

/-- The outputs of the answers are the pieces of the bytes. -/
theorem outputs_split (bs : Bytes) : (split bs).map (·.output) = bs.splitOn 0x04 := by
  have hne := List.splitOn_ne_nil 0x04 bs
  have hlast : (bs.splitOn 0x04).getLastD [] = (bs.splitOn 0x04).getLast hne := by
    rw [List.getLastD_eq_getLast?, List.getLast?_eq_some_getLast hne, Option.getD_some]
  have houtputs : (Response.output ∘ fun body => (⟨body, false⟩ : Response)) = id := rfl
  rw [split, List.map_append, List.map_map, houtputs, List.map_id, List.map_singleton, hlast,
    List.dropLast_append_getLast]

/-- The outputs with an end byte between them are all the bytes. -/
theorem joined_split (bs : Bytes) : [0x04].intercalate ((split bs).map (·.output)) = bs := by
  rw [outputs_split, List.intercalate_splitOn]

end Response

/-- A reply as the answer that a client gets. -/
def Reply.answer (r : Reply) : Response := ⟨r.body, false⟩

namespace Session.Served

/-- A session that has given these replies before the rest of it. -/
def afterAll (replies : List Reply) (s : Served) : Served :=
  replies.foldr (fun reply s => s.after reply.body reply.inherited) s

/-- Bodies without an end byte are answers by themselves. -/
theorem split_afterAll {replies : List Reply} (h : ∀ reply ∈ replies, 0x04 ∉ reply.body)
    {s : Served} (hs : s.sent = []) :
    Response.split (s.afterAll replies).sent =
      replies.map Reply.answer ++ Response.split [] := by
  induction replies with
  | nil =>
    rw [afterAll, List.foldr_nil, hs]
    rfl
  | cons reply replies ih =>
    have hreply : Response.responseEnd ∉ reply.body := h reply List.mem_cons_self
    have hrest := ih fun reply hmem => h reply (List.mem_cons_of_mem _ hmem)
    have hsent : (s.afterAll (reply :: replies)).sent =
        reply.body ++ Response.responseEnd :: (s.afterAll replies).sent := rfl
    rw [hsent, Response.split_of_ready (Response.ready?_body hreply _), hrest]
    rfl

end Session.Served

namespace ResponseReader

/-- What so many calls give, and the reader after them. -/
def calls : Nat → ResponseReader → List (Except ReadFailure Response) × ResponseReader
  | 0, r => ([], r)
  | n + 1, r => (r.next.1 :: (calls n r.next.2).1, (calls n r.next.2).2)

/-- What a stream gives to so many calls behind its end. -/
def closings (n : Nat) : List Response := List.replicate n ⟨[], true⟩

/-- A reader of an unbroken stream finds the answer at the head of its bytes, or all of them when
no end byte is left, and then nothing more. -/
theorem next_unbroken {r : ResponseReader} (h : r.source.Unbroken) :
    r.next.2.source.Unbroken ∧
      ((∃ response, r.next.1 = .ok response ∧
          Response.ready? r.held = some (response, r.next.2.held)) ∨
        (r.next.1 = .ok ⟨r.held, true⟩ ∧ Response.ready? r.held = none ∧ r.next.2.held = [])) := by
  fun_induction next r with
  | case1 r response rest hr => exact ⟨h, Or.inl ⟨response, rfl, Response.ready?_append hr _⟩⟩
  | case2 r hr hs =>
    have hheld : r.held = r.pending := by rw [held, hs, Reads.bytes_nil, List.append_nil]
    rw [hheld]
    exact ⟨h, Or.inr ⟨rfl, hr, by rw [held, hs]; rfl⟩⟩
  | case3 r hr event rs hs later ht ih =>
    obtain ⟨rfl, rfl⟩ := Reads.take_interrupted ht
    have hheld : r.held = held { r with source := rs } := by
      simp only [held, hs, Reads.bytes_cons, Read.bytes, List.nil_append]
    rw [hs] at h
    rw [hheld]
    exact ih h
  | case4 r hr event rs hs later ht =>
    obtain ⟨rfl, rfl⟩ := Reads.take_wouldBlock ht
    rw [hs] at h
    exact h.elim
  | case5 r hr event rs hs later ht =>
    obtain ⟨rfl, rfl⟩ := Reads.take_nothing (by decide) ht
    rw [hs] at h
    have hnil : Reads.bytes rs = [] := h.1 rfl
    have hheld : r.held = r.pending := by
      rw [held, hs, Reads.bytes_cons, Read.bytes, hnil, List.append_nil, List.append_nil]
    rw [hheld]
    exact ⟨h.2, Or.inr ⟨rfl, hr, hnil⟩⟩
  | case6 r hr event rs hs b bs later ht ih =>
    have hheld : r.held = held ⟨r.pending ++ b :: bs, later⟩ := by
      simp only [held, hs, Reads.bytes_take ht, Read.bytes, List.append_assoc]
    rw [hs] at h
    rw [hheld]
    exact ih (Reads.unbroken_take h ht)

/-- One call gives the first answer of the bytes. The closing answer leaves no byte. -/
theorem next_answer {r : ResponseReader} (h : r.source.Unbroken) :
    ∃ response, r.next.1 = .ok response ∧
      ((response.closed = false ∧
          Response.split r.held = response :: Response.split r.next.2.held) ∨
        (response.closed = true ∧ Response.split r.held = [response] ∧ r.next.2.held = [])) := by
  rcases (next_unbroken h).2 with ⟨response, hn, hr⟩ | ⟨hn, hr, hheld⟩
  · refine ⟨response, hn, Or.inl ⟨?_, Response.split_of_ready hr⟩⟩
    rcases Response.ready?_cases r.held with ⟨body, rest, -, -, hbody⟩ | ⟨-, hnone⟩
    · rw [← (Prod.mk.inj (Option.some.inj (hbody.symm.trans hr))).1]
    · rw [hnone] at hr
      cases hr
  · exact ⟨_, hn, Or.inr ⟨rfl, Response.split_of_not_ready hr, hheld⟩⟩

theorem take_closings {m n : Nat} (h : m ≤ n) : (closings n).take m = closings m := by
  rw [closings, List.take_replicate, Nat.min_eq_left h, closings]

/-- Behind the end of a stream there is nothing but its end. -/
theorem take_drained {m n : Nat} (h : m ≤ n) :
    (Response.split [] ++ closings n).take m = closings m := by
  have hcons : Response.split [] ++ closings n = closings (n + 1) := rfl
  rw [hcons, take_closings (Nat.le_succ_of_le h)]

/-- Calls give one answer of the bytes after the other, and behind the last one nothing. -/
theorem calls_held {r : ResponseReader} (h : r.source.Unbroken) (n : Nat) :
    (calls n r).1 = ((Response.split r.held ++ closings n).take n).map .ok := by
  induction n generalizing r with
  | zero => rfl
  | succ n ih =>
    have hlater := ih (next_unbroken h).1
    have hclosings : closings (n + 1) = closings n ++ closings 1 := List.replicate_add ..
    obtain ⟨response, hn, ⟨-, hcons⟩ | ⟨-, hone, hheld⟩⟩ := next_answer h
    · have hle : n ≤ (Response.split r.next.2.held ++ closings n).length := by
        simp [closings]
      rw [calls, hn, hlater, hcons, List.cons_append, List.take_succ_cons, hclosings,
        ← List.append_assoc, List.take_append_of_le_length hle]
      rfl
    · rw [calls, hn, hlater, hheld, take_drained (Nat.le_refl n), hone, List.cons_append,
        List.take_succ_cons, List.nil_append, take_closings (Nat.le_succ n)]
      rfl

/-- Any number of calls on a stream give the pieces of its bytes before each end byte, then the
closing piece, and then nothing any more, wherever the reads begin and end. The pieces make up all
bytes, and those of a session are the bodies of its replies. -/
theorem calls_of_stream (source : Reads) (h : source.Unbroken) (n : Nat) :
    let answers := Response.split source.bytes
    (calls n { source }).1 = ((answers ++ closings n).take n).map .ok ∧
      answers.map (·.output) = source.bytes.splitOn 0x04 ∧
      [0x04].intercalate (answers.map (·.output)) = source.bytes ∧
      ∀ (replies : List Reply) (rest : Session.Served), (∀ reply ∈ replies, 0x04 ∉ reply.body) →
        rest.sent = [] → source.bytes = (rest.afterAll replies).sent →
        (calls n { source }).1 = ((replies.map Reply.answer ++ closings n).take n).map .ok := by
  intro answers
  have hcalls : (calls n { source }).1 = ((answers ++ closings n).take n).map .ok :=
    calls_held (r := { source }) h n
  refine ⟨hcalls, Response.outputs_split _, Response.joined_split _, ?_⟩
  intro replies rest hreplies hrest hsent
  have hanswers : answers = replies.map Reply.answer ++ Response.split [] := by
    rw [← Session.Served.split_afterAll hreplies hrest, ← hsent]
  have hle := Nat.sub_le n (replies.map Reply.answer).length
  have htake : ∀ behind : List Response, (replies.map Reply.answer ++ behind).take n =
      (replies.map Reply.answer).take n ++ behind.take (n - (replies.map Reply.answer).length) :=
    fun _ => List.take_append
  rw [hcalls, hanswers, List.append_assoc, htake, htake, take_drained hle, take_closings hle]

/-- Two answers, the first of them in two pieces, an empty one, and the end of the stream. -/
def severalAnswers : Reads :=
  [.data [0x61], .interrupted, .data [0x62, 0x04, 0x63], .data [0x04, 0x04], .data []]

theorem calls_of_stream_several :
    severalAnswers.Unbroken ∧ (calls 5 { source := severalAnswers }).1 =
      [.ok ⟨[0x61, 0x62], false⟩, .ok ⟨[0x63], false⟩, .ok ⟨[], false⟩, .ok ⟨[], true⟩,
        .ok ⟨[], true⟩] := by
  let shell : Shell := { workDir := "/", home := "/" }
  let replies : List Reply := [{ body := [0x61, 0x62], shell, source := [] },
    { body := [0x63], shell, source := [] }, { body := [], shell, source := [] }]
  have hreads : severalAnswers.Unbroken := by simp [severalAnswers, Reads.Unbroken, Reads.bytes]
  obtain ⟨-, -, -, hbodies⟩ := calls_of_stream severalAnswers hreads 5
  refine ⟨hreads, ?_⟩
  exact hbodies replies { ended := .disconnected, shell, reader := { source := [] } }
    (by decide) rfl rfl

end ResponseReader
end PipeShell
