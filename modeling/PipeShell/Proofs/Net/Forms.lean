import PipeShell.Proofs.Net.Literals

/-! The forms in which an address may be written. A host stands alone or in brackets, and a port
behind a colon; a few other spellings are read as well. -/
namespace PipeShell.HostPort

variable {text front back host port : List Char} {mark : Char}

section Marks

variable {xs : List Char}

/-- A text is cut at its first mark. -/
theorem cut_marked (h : mark ∉ xs) (ys : List Char) :
    (xs ++ mark :: ys).takeWhile (· != mark) = xs ∧
      (xs ++ mark :: ys).dropWhile (· != mark) = mark :: ys := by
  have hall : ∀ c ∈ xs, (c != mark) = true := by
    intro c hc
    rw [bne_iff_ne]
    rintro rfl
    exact h hc
  rw [List.takeWhile_append_of_pos hall, List.dropWhile_append_of_pos hall]
  simp

theorem cut_unmarked (h : mark ∉ xs) :
    xs.takeWhile (· != mark) = xs ∧ xs.dropWhile (· != mark) = [] := by
  have hall : ∀ c ∈ xs, (c != mark) = true := by
    intro c hc
    rw [bne_iff_ne]
    rintro rfl
    exact h hc
  exact ⟨List.takeWhile_eq_self_iff.2 hall, List.dropWhile_eq_nil_iff.2 hall⟩

end Marks

/-- A host without brackets: nothing, or an IPv4 address. -/
def PlainHost (host : List Char) : Prop := host = [] ∨ ∃ a : Ipv4, host = a.text.toList

/-- What may stand in brackets: nothing, or an address. -/
def BracketedHost (host : List Char) : Prop :=
  host = [] ∨ (IpAddress.read? (String.ofList host)).isSome = true

/-- Decimal digits of a number that a port can have. -/
structure PortDigits (port : List Char) : Prop where
  ne_nil : port ≠ []
  digits : ∀ c ∈ port, Text.isDigit 10 c = true
  value_le : Text.value 10 port ≤ 65535

/-- A host and how it is written. -/
inductive WrittenHost : List Char → List Char → Prop
  | plain {host : List Char} (h : PlainHost host) : WrittenHost host host
  | bracketed {host : List Char} (h : BracketedHost host) :
      WrittenHost ('[' :: (host ++ [']'])) host

/-- A port and how it is written: left out with its colon or without, or in digits. -/
inductive WrittenPort : List Char → List Char → Prop
  | leftOut : WrittenPort [] []
  | colon : WrittenPort [':'] []
  | digits {port : List Char} (h : PortDigits port) : WrittenPort (':' :: port) port

/-- The documented forms of an address, with the host and the port that are in it. -/
inductive Form : List Char → List Char → List Char → Prop
  | mk {front back host port : List Char} (hh : WrittenHost front host)
      (hp : WrittenPort back port) : Form (front ++ back) host port

/-- Spellings that no documented form has: a port with a plus sign, or one that follows the bracket
without a colon. -/
inductive Slip : List Char → List Char → List Char → Prop
  | signed {front host port : List Char} (hh : WrittenHost front host) (hp : PortDigits port) :
      Slip (front ++ ':' :: '+' :: port) host port
  | joined {host port : List Char} (hh : BracketedHost host) (hp : PortDigits port) :
      Slip ('[' :: (host ++ ']' :: port)) host port
  | joinedSigned {host port : List Char} (hh : BracketedHost host) (hp : PortDigits port) :
      Slip ('[' :: (host ++ ']' :: '+' :: port)) host port

/-- The address that a host and a port stand for, with what holds where one is left out. -/
def given (defaultHost : String) (host port : List Char) : HostPort where
  host := if host = [] then defaultHost else String.ofList host
  port := if port = [] then 1234 else (Text.value 10 port).toUInt16

theorem PlainHost.colon_not_mem (h : PlainHost host) : ':' ∉ host := by
  rcases h with rfl | ⟨a, rfl⟩
  · exact List.not_mem_nil
  · intro hmem
    rcases Ipv4.digit_or_dot_of_mem hmem with hdigit | hdot
    · exact absurd hdigit (by decide)
    · exact absurd hdot (by decide)

theorem PlainHost.open_not_mem (h : PlainHost host) : '[' ∉ host := by
  rcases h with rfl | ⟨a, rfl⟩
  · exact List.not_mem_nil
  · intro hmem
    exact absurd (a.letters '[' hmem) (by decide)

theorem BracketedHost.close_not_mem (h : BracketedHost host) : ']' ∉ host := by
  rcases h with rfl | h
  · exact List.not_mem_nil
  · intro hmem
    obtain ⟨a, ha⟩ := Option.isSome_iff_exists.1 h
    have hletter := IpAddress.letters_of_read? ha ']' (by rwa [String.toList_ofList])
    exact absurd hletter (by decide)

theorem PortDigits.not_mem (h : PortDigits port) {c : Char} (hc : Text.isDigit 10 c = false) :
    c ∉ port := by
  intro hmem
  rw [h.digits c hmem] at hc
  cases hc

theorem PortDigits.head_ne (h : PortDigits port) {c : Char} (hc : Text.isDigit 10 c = false)
    (cs : List Char) : port ≠ c :: cs := by
  rintro rfl
  exact h.not_mem hc List.mem_cons_self

/-- What stands behind the host. -/
def behindHost : List Char → List Char
  | '[' :: inner => (inner.dropWhile (· != ']')).drop 1
  | text => text.dropWhile (· != ':')

theorem behindHost_bracketed (h : BracketedHost host) (back : List Char) :
    behindHost ('[' :: (host ++ ']' :: back)) = back := by
  rw [behindHost, (cut_marked h.close_not_mem back).2]
  rfl

theorem behindHost_plain (h : '[' ∉ text) : behindHost text = text.dropWhile (· != ':') := by
  rw [behindHost]
  rintro inner rfl
  exact h List.mem_cons_self

theorem behindHost_written (h : WrittenHost front host) (hb : back = [] ∨ ∃ p, back = ':' :: p)
    (hopen : '[' ∉ back) : behindHost (front ++ back) = back := by
  cases h with
  | plain h =>
    rw [behindHost_plain (by simp [h.open_not_mem, hopen])]
    rcases hb with rfl | ⟨p, rfl⟩
    · rw [List.append_nil]
      exact (cut_unmarked h.colon_not_mem).2
    · exact (cut_marked h.colon_not_mem p).2
  | bracketed h =>
    rw [List.cons_append, List.append_assoc]
    exact behindHost_bracketed h back

theorem WrittenPort.begins (h : WrittenPort back port) :
    (back = [] ∨ ∃ p, back = ':' :: p) ∧ '[' ∉ back := by
  cases h with
  | leftOut => exact ⟨Or.inl rfl, List.not_mem_nil⟩
  | colon => exact ⟨Or.inr ⟨[], rfl⟩, by decide⟩
  | digits h => exact ⟨Or.inr ⟨_, rfl⟩, by simp [h.not_mem (c := '[') (by decide)]⟩

/-- No other spelling has a documented form. -/
theorem Slip.not_form (h : Slip text host port) : ¬ ∃ host' port', Form text host' port' := by
  rintro ⟨host', port', hform⟩
  have hback : WrittenPort (behindHost text) port' := by
    cases hform with
    | mk hh hp =>
      obtain ⟨hb, hopen⟩ := hp.begins
      rwa [behindHost_written hh hb hopen]
  cases h with
  | @signed front _ _ hh hp =>
    have hopen : '[' ∉ ':' :: '+' :: port := by simp [hp.not_mem (c := '[') (by decide)]
    rw [behindHost_written hh (Or.inr ⟨_, rfl⟩) hopen] at hback
    cases hback with
    | digits h => exact h.head_ne (by decide) _ rfl
  | joined hh hp =>
    rw [behindHost_bracketed hh] at hback
    generalize port = back at hback hp
    cases hback with
    | leftOut => exact hp.ne_nil rfl
    | colon => exact hp.head_ne (by decide) _ rfl
    | digits => exact hp.head_ne (by decide) _ rfl
  | joinedSigned hh hp =>
    rw [behindHost_bracketed hh] at hback
    cases hback

theorem split?_bracketed (h : BracketedHost host) (back : List Char) :
    split? ('[' :: (host ++ ']' :: back)) =
      some (host, match back with | ':' :: port => port | port => port) := by
  obtain ⟨htake, hdrop⟩ := cut_marked h.close_not_mem back
  simp only [split?, htake, hdrop]
  split
  · case h_1 heq => cases heq
  · case h_2 heq => obtain ⟨-, rfl⟩ := List.cons.inj heq; rfl
  · case h_3 hne heq =>
    obtain ⟨-, rfl⟩ := List.cons.inj heq
    split
    · case h_1 port => exact absurd rfl (hne port)
    · rfl

theorem split?_plain (hopen : '[' ∉ text) : split? text =
    if 1 < text.count ':' then none
    else some (text.takeWhile (· != ':'), (text.dropWhile (· != ':')).drop 1) := by
  rw [split?]
  rintro inner rfl
  exact hopen List.mem_cons_self

/-- A written host is split off, whatever stands behind it if that is nothing or has one colon, at
its head. -/
theorem split?_written (h : WrittenHost front host) (hopen : '[' ∉ port) (hcolon : ':' ∉ port) :
    split? front = some (host, []) ∧ split? (front ++ ':' :: port) = some (host, port) := by
  cases h with
  | plain h =>
    have hnone : front.count ':' = 0 := List.count_eq_zero.2 h.colon_not_mem
    obtain ⟨htake, hdrop⟩ := cut_unmarked h.colon_not_mem
    obtain ⟨htake', hdrop'⟩ := cut_marked h.colon_not_mem port
    constructor
    · rw [split?_plain h.open_not_mem, hnone, htake, hdrop]
      rfl
    · have hone : (front ++ ':' :: port).count ':' = 1 := by
        rw [List.count_append, hnone, List.count_cons_self, List.count_eq_zero.2 hcolon]
      rw [split?_plain (by simp [h.open_not_mem, hopen]), hone, htake', hdrop']
      rfl
  | bracketed h =>
    constructor
    · exact split?_bracketed h []
    · rw [List.cons_append, List.append_assoc]
      exact split?_bracketed h (':' :: port)

theorem readPort?_eq_some {p : UInt16} : readPort? text = some p ↔
    ∃ port, (text = port ∨ text = '+' :: port) ∧ PortDigits port ∧
      p = (Text.value 10 port).toUInt16 := by
  have hnumeral : ∀ cs : List Char, (do
      let n ← Text.numeral? 10 cs
      if n < 65536 then some n.toUInt16 else none) = some p ↔
        PortDigits cs ∧ p = (Text.value 10 cs).toUInt16 := by
    intro cs
    simp only [Text.numeral?, Option.bind_eq_bind, Option.bind_eq_some_iff,
      Option.ite_none_right_eq_some, Option.some.injEq, Bool.and_eq_true, bne_iff_ne,
      List.all_eq_true]
    constructor
    · rintro ⟨_, ⟨⟨hne, hdigits⟩, rfl⟩, hlt, rfl⟩
      exact ⟨⟨hne, hdigits, Nat.le_of_lt_succ hlt⟩, rfl⟩
    · rintro ⟨h, rfl⟩
      exact ⟨_, ⟨⟨h.ne_nil, h.digits⟩, rfl⟩, Nat.lt_succ_of_le h.value_le, rfl⟩
  unfold readPort?
  split
  · case h_1 digits =>
    rw [hnumeral]
    constructor
    · rintro ⟨hp, rfl⟩
      exact ⟨digits, Or.inr rfl, hp, rfl⟩
    · rintro ⟨port, rfl | heq, hp, rfl⟩
      · exact absurd rfl (hp.head_ne (by decide) digits)
      · obtain ⟨-, rfl⟩ := List.cons.inj heq
        exact ⟨hp, rfl⟩
  · case h_2 hsign =>
    rw [hnumeral]
    constructor
    · rintro ⟨hp, rfl⟩
      exact ⟨text, Or.inl rfl, hp, rfl⟩
    · rintro ⟨port, rfl | rfl, hp, rfl⟩
      · exact ⟨hp, rfl⟩
      · exact absurd rfl (hsign port)

/-- Where a text is cut: behind the first bracket that closes, else at the only colon. -/
theorem cut_of_split? (h : split? text = some (host, port)) :
    (∃ back, text = '[' :: (host ++ ']' :: back) ∧ (back = port ∨ back = ':' :: port)) ∨
      ':' ∉ host ∧ (text = host ∧ port = [] ∨ text = host ++ ':' :: port) := by
  unfold split? at h
  split at h
  · case h_1 inner =>
    have hinner : inner.takeWhile (· != ']') ++ inner.dropWhile (· != ']') = inner :=
      List.takeWhile_append_dropWhile
    have hhead : ∀ c cs, inner.dropWhile (· != ']') = c :: cs → c = ']' := by
      intro c cs hdrop
      have hnot := List.head_dropWhile_not (· != ']') (l := inner) (by rw [hdrop]; simp)
      simpa [hdrop] using hnot
    left
    split at h
    · cases h
    · case h_2 c back hdrop =>
      obtain ⟨rfl, rfl⟩ := Prod.mk.inj (Option.some.inj h)
      obtain rfl := hhead c _ hdrop
      rw [hdrop] at hinner
      exact ⟨_, congrArg _ hinner.symm, Or.inr rfl⟩
    · case h_3 c back _ hdrop =>
      obtain ⟨rfl, rfl⟩ := Prod.mk.inj (Option.some.inj h)
      obtain rfl := hhead c _ hdrop
      rw [hdrop] at hinner
      exact ⟨_, congrArg _ hinner.symm, Or.inl rfl⟩
  · right
    split at h
    · cases h
    · obtain ⟨rfl, rfl⟩ := Prod.mk.inj (Option.some.inj h)
      refine ⟨fun hmem => by simpa using List.mem_takeWhile_imp hmem, ?_⟩
      have htext : text.takeWhile (· != ':') ++ text.dropWhile (· != ':') = text :=
        List.takeWhile_append_dropWhile
      cases hdrop : text.dropWhile (· != ':') with
      | nil =>
        rw [hdrop, List.append_nil] at htext
        exact Or.inl ⟨htext.symm, rfl⟩
      | cons c cs =>
        have hnot := List.head_dropWhile_not (· != ':') (l := text) (by rw [hdrop]; simp)
        obtain rfl : c = ':' := by simpa [hdrop] using hnot
        rw [hdrop] at htext
        exact Or.inr htext.symm

variable {spec defaultHost : String} {a : HostPort}

/-- The address that a host and a port give, if the port is one and the host is an address. -/
def assemble (defaultHost : String) (host port : List Char) : Option HostPort :=
  (if port = [] then some defaultPort else readPort? port).bind fun p =>
    (IpAddress.read? (if host = [] then defaultHost else String.ofList host)).map fun _ =>
      ⟨if host = [] then defaultHost else String.ofList host, p⟩

theorem read_eq (spec defaultHost : String) : read spec defaultHost =
    match (split? (Text.trimChars spec.toList)).bind
      fun cut => assemble defaultHost cut.1 cut.2 with
    | some a => .ok a
    | none => .error ⟨spec⟩ := by
  cases hcut : split? (Text.trimChars spec.toList) with
  | none => simp [read, hcut]
  | some cut =>
    by_cases hport : cut.2 = []
    · simp only [read, hcut, assemble, hport, Option.bind_eq_bind, Option.bind_some, beq_iff_eq,
        if_true, Option.pure_def, Option.map_eq_bind]
      rfl
    · simp only [read, hcut, assemble, hport, Option.bind_eq_bind, Option.bind_some, beq_iff_eq,
        if_false, Option.pure_def, Option.map_eq_bind]
      rfl

theorem read_eq_ok : read spec defaultHost = .ok a ↔ ∃ host port,
    split? (Text.trimChars spec.toList) = some (host, port) ∧
      assemble defaultHost host port = some a := by
  rw [read_eq, ← Prod.exists (p := fun cut => split? (Text.trimChars spec.toList) = some cut ∧
    assemble defaultHost cut.1 cut.2 = some a), ← Option.bind_eq_some_iff]
  split
  · case h_1 found heq => rw [heq, Except.ok.injEq, Option.some.injEq]
  · case h_2 heq => simp [heq]

theorem assemble_eq_some : assemble defaultHost host port = some a ↔ ∃ p,
    (if port = [] then some defaultPort else readPort? port) = some p ∧
      (IpAddress.read? (if host = [] then defaultHost else String.ofList host)).isSome = true ∧
      a = ⟨if host = [] then defaultHost else String.ofList host, p⟩ := by
  rw [assemble, Option.bind_eq_some_iff]
  simp only [Option.map_eq_some_iff, Option.isSome_iff_exists]
  constructor
  · rintro ⟨p, hp, ip, hip, rfl⟩
    exact ⟨p, hp, ⟨ip, hip⟩, rfl⟩
  · rintro ⟨p, hp, ⟨ip, hip⟩, rfl⟩
    exact ⟨p, hp, ip, hip, rfl⟩

/-- An error quotes the text as it was given. -/
theorem read_eq_error (h : ¬ ∃ a, read spec defaultHost = .ok a) :
    read spec defaultHost = .error ⟨spec⟩ := by
  rw [read_eq] at h ⊢
  split
  · case h_1 a heq =>
    rw [heq] at h
    exact absurd ⟨a, rfl⟩ h
  · rfl

/-- Without colons a host that is read is an IPv4 address. -/
theorem plainHost_of_read? (hcolon : ':' ∉ host)
    (h : (IpAddress.read? (if host = [] then defaultHost else String.ofList host)).isSome = true) :
    PlainHost host := by
  by_cases hnil : host = []
  · exact Or.inl hnil
  · rw [if_neg hnil] at h
    obtain ⟨a, ha⟩ := Option.isSome_iff_exists.1 h
    obtain ⟨v4, hv4⟩ := IpAddress.v4_of_read? ha (by rwa [String.toList_ofList])
    exact Or.inr ⟨v4, by rw [← hv4, String.toList_ofList]⟩

theorem bracketedHost_of_read?
    (h : (IpAddress.read? (if host = [] then defaultHost else String.ofList host)).isSome = true) :
    BracketedHost host := by
  by_cases hnil : host = []
  · exact Or.inl hnil
  · rw [if_neg hnil] at h
    exact Or.inr h

/-- A text that is cut without a port has a form without one. -/
theorem form_of_cut (hcut : split? text = some (host, []))
    (h : (IpAddress.read? (if host = [] then defaultHost else String.ofList host)).isSome = true) :
    Form text host [] := by
  rcases cut_of_split? hcut with ⟨back, rfl, hback⟩ | ⟨hcolon, htext⟩
  · have hwritten := WrittenHost.bracketed (bracketedHost_of_read? h)
    rw [show '[' :: (host ++ ']' :: back) = '[' :: (host ++ [']']) ++ back by simp]
    rcases hback with rfl | rfl
    · exact .mk hwritten .leftOut
    · exact .mk hwritten .colon
  · have hwritten := WrittenHost.plain (plainHost_of_read? hcolon h)
    rcases htext with ⟨rfl, -⟩ | rfl
    · have hform := Form.mk hwritten .leftOut
      rwa [List.append_nil] at hform
    · exact .mk hwritten .colon

/-- A text that is cut with a port has a form with it, or is a slip. -/
theorem form_or_slip_of_cut {p : UInt16} (hcut : split? text = some (host, port))
    (hport : readPort? port = some p)
    (h : (IpAddress.read? (if host = [] then defaultHost else String.ofList host)).isSome = true) :
    ∃ digits, (Form text host digits ∨ Slip text host digits) ∧ PortDigits digits ∧
      p = (Text.value 10 digits).toUInt16 := by
  obtain ⟨digits, hsign, hdigits, hp⟩ := readPort?_eq_some.1 hport
  refine ⟨digits, ?_, hdigits, hp⟩
  rcases cut_of_split? hcut with ⟨back, rfl, hback⟩ | ⟨hcolon, htext⟩
  · have hhost := bracketedHost_of_read? h
    have hbracket : ∀ back, '[' :: (host ++ ']' :: back) = '[' :: (host ++ [']']) ++ back := by simp
    rcases hback with rfl | rfl <;> rcases hsign with rfl | rfl
    · exact Or.inr (.joined hhost hdigits)
    · exact Or.inr (.joinedSigned hhost hdigits)
    · rw [hbracket]
      exact Or.inl (.mk (.bracketed hhost) (.digits hdigits))
    · rw [hbracket]
      exact Or.inr (.signed (.bracketed hhost) hdigits)
  · have hwritten := WrittenHost.plain (plainHost_of_read? hcolon h)
    rcases htext with ⟨-, rfl⟩ | rfl
    · rcases hsign with rfl | heq
      · exact absurd rfl hdigits.ne_nil
      · cases heq
    · rcases hsign with rfl | rfl
      · exact Or.inl (.mk hwritten (.digits hdigits))
      · exact Or.inr (.signed hwritten hdigits)

/-- Only what has a form or is a slip is read. -/
theorem written_of_read (h : read spec defaultHost = .ok a) : ∃ host port,
    (Form (Text.trimChars spec.toList) host port ∨ Slip (Text.trimChars spec.toList) host port) ∧
      a = given defaultHost host port := by
  obtain ⟨host, port, hcut, ha⟩ := read_eq_ok.1 h
  obtain ⟨p, hport, hhost, rfl⟩ := assemble_eq_some.1 ha
  by_cases hnil : port = []
  · subst hnil
    rw [if_pos rfl] at hport
    obtain rfl : defaultPort = p := Option.some.inj hport
    exact ⟨host, [], Or.inl (form_of_cut hcut hhost), rfl⟩
  · rw [if_neg hnil] at hport
    obtain ⟨digits, htext, hdigits, rfl⟩ := form_or_slip_of_cut hcut hport hhost
    exact ⟨host, digits, htext, by rw [given, if_neg hdigits.ne_nil]⟩

/-- A written host is an address, or gives way to the default. -/
theorem WrittenHost.read? (h : WrittenHost front host)
    (hd : host = [] → (IpAddress.read? defaultHost).isSome = true) :
    (IpAddress.read? (if host = [] then defaultHost else String.ofList host)).isSome = true := by
  by_cases hnil : host = []
  · rw [if_pos hnil]
    exact hd hnil
  · rw [if_neg hnil]
    cases h with
    | plain h =>
      obtain ⟨a, rfl⟩ := h.resolve_left hnil
      rw [String.ofList_toList, show a.text = (IpAddress.v4 a).text from rfl,
        IpAddress.read?_text]
      rfl
    | bracketed h => exact h.resolve_left hnil

/-- Where a text of a form or a slip is cut. -/
theorem exists_cut (h : Form text host port ∨ Slip text host port) :
    ∃ front written, WrittenHost front host ∧ split? text = some (host, written) ∧
      (port = [] ∧ written = [] ∨ PortDigits port ∧ (written = port ∨ written = '+' :: port)) := by
  have hmark : ∀ {port}, PortDigits port → '[' ∉ port ∧ ':' ∉ port :=
    fun hp => ⟨hp.not_mem (by decide), hp.not_mem (by decide)⟩
  have hsigned : ∀ {port}, PortDigits port → '[' ∉ '+' :: port ∧ ':' ∉ '+' :: port := by
    intro port hp
    simp [hmark hp]
  rcases h with ⟨hh, hp⟩ | h
  · cases hp with
    | leftOut =>
      rw [List.append_nil]
      exact ⟨_, [], hh, (split?_written hh List.not_mem_nil List.not_mem_nil).1, Or.inl ⟨rfl, rfl⟩⟩
    | colon =>
      exact ⟨_, [], hh, (split?_written hh List.not_mem_nil List.not_mem_nil).2, Or.inl ⟨rfl, rfl⟩⟩
    | digits hp =>
      exact ⟨_, port, hh, (split?_written hh (hmark hp).1 (hmark hp).2).2, Or.inr ⟨hp, Or.inl rfl⟩⟩
  · cases h with
    | signed hh hp =>
      exact ⟨_, _, hh, (split?_written hh (hsigned hp).1 (hsigned hp).2).2,
        Or.inr ⟨hp, Or.inr rfl⟩⟩
    | joined hh hp =>
      refine ⟨_, port, .bracketed hh, ?_, Or.inr ⟨hp, Or.inl rfl⟩⟩
      rw [split?_bracketed hh]
      split
      · exact absurd rfl (hp.head_ne (by decide) _)
      · rfl
    | joinedSigned hh hp =>
      exact ⟨_, _, .bracketed hh, split?_bracketed hh _, Or.inr ⟨hp, Or.inr rfl⟩⟩

/-- Whatever has a form or is a slip is read. -/
theorem read_of_written
    (h : Form (Text.trimChars spec.toList) host port ∨ Slip (Text.trimChars spec.toList) host port)
    (hd : host = [] → (IpAddress.read? defaultHost).isSome = true) :
    read spec defaultHost = .ok (given defaultHost host port) := by
  obtain ⟨front, written, hhost, hcut, hwritten⟩ := exists_cut h
  refine read_eq_ok.2 ⟨host, written, hcut, assemble_eq_some.2 ⟨_, ?_, hhost.read? hd, rfl⟩⟩
  rcases hwritten with ⟨rfl, rfl⟩ | ⟨hp, hwritten⟩
  · rfl
  · have hport := readPort?_eq_some.2 ⟨port, hwritten, hp, rfl⟩
    have hne : written ≠ [] := by
      rintro rfl
      cases hport
    rw [if_neg hne, if_neg hp.ne_nil, hport]

/-- What is read, and as what: the documented forms, and beside them nothing but the slips, none of
which has a form. An error quotes the text as it was given. -/
theorem read_ok_iff_form (hd : (IpAddress.read? defaultHost).isSome = true) :
    (∀ spec a, read spec defaultHost = .ok a ↔ ∃ host port,
      (Form (Text.trimChars spec.toList) host port ∨
        Slip (Text.trimChars spec.toList) host port) ∧ a = given defaultHost host port) ∧
    (∀ spec, (¬ ∃ a, read spec defaultHost = .ok a) → read spec defaultHost = .error ⟨spec⟩) ∧
    ∀ text host port, Slip text host port → ¬ ∃ host' port', Form text host' port' := by
  refine ⟨?_, fun spec => read_eq_error, fun text host port => Slip.not_form⟩
  intro spec a
  constructor
  · exact written_of_read
  · rintro ⟨host, port, h, rfl⟩
    exact read_of_written h fun _ => hd

theorem read_ok_iff_form_bracketed :
    (IpAddress.read? "127.0.0.1").isSome = true ∧
      Form (Text.trimChars " [::1]:99 ".toList) "::1".toList "99".toList ∧
      read " [::1]:99 " "127.0.0.1" = .ok ⟨"::1", 99⟩ := by
  have hd : (IpAddress.read? "127.0.0.1").isSome = true := by decide
  have hhost : BracketedHost "::1".toList := Or.inr (by decide)
  have hport : PortDigits "99".toList := ⟨by decide, List.all_eq_true.1 (by decide), by decide⟩
  have hform : Form (Text.trimChars " [::1]:99 ".toList) "::1".toList "99".toList :=
    .mk (.bracketed hhost) (.digits hport)
  exact ⟨hd, hform, ((read_ok_iff_form hd).1 _ _).2 ⟨_, _, Or.inl hform, rfl⟩⟩

/-- A port right behind the bracket and a port with a plus sign are read, though neither has a
form. -/
theorem read_slips :
    read "[::1]80" "127.0.0.1" = .ok ⟨"::1", 80⟩ ∧
      (¬ ∃ host port, Form (Text.trimChars "[::1]80".toList) host port) ∧
      read "10.0.0.1:+80" "127.0.0.1" = .ok ⟨"10.0.0.1", 80⟩ ∧
      ¬ ∃ host port, Form (Text.trimChars "10.0.0.1:+80".toList) host port := by
  have hport : PortDigits "80".toList := ⟨by decide, List.all_eq_true.1 (by decide), by decide⟩
  have hbracketed : BracketedHost "::1".toList := Or.inr (by decide)
  have hplain : PlainHost "10.0.0.1".toList := Or.inr ⟨⟨#v[10, 0, 0, 1]⟩, by decide⟩
  have hjoined : Slip (Text.trimChars "[::1]80".toList) "::1".toList "80".toList :=
    .joined hbracketed hport
  have hsigned : Slip (Text.trimChars "10.0.0.1:+80".toList) "10.0.0.1".toList "80".toList :=
    .signed (.plain hplain) hport
  exact ⟨by decide, hjoined.not_form, by decide, hsigned.not_form⟩

end PipeShell.HostPort
