import PipeShell.Proofs.Net.Forms
import PipeShell.Service.Server

/-! Addresses that are read can be used. The text of every socket address is read back, and no
address that has been read is refused later. -/
namespace PipeShell

namespace IpAddress

variable {ip : IpAddress}

theorem letters_text (ip : IpAddress) : ∀ c ∈ ip.text.toList, isLetter c = true :=
  letters_of_read? ip.read?_text

theorem text_ne_empty (ip : IpAddress) : ip.text.toList ≠ [] := by
  intro hnil
  have hread := ip.read?_text
  rw [String.toList_eq_nil_iff.1 hnil] at hread
  exact absurd hread (by simp [show read? "" = none from rfl])

end IpAddress

namespace SocketAddress

open HostPort (Form PortDigits WrittenHost)

variable (s : SocketAddress)

/-- The host of a socket address, as it stands in its text. -/
def hostText : String :=
  match s.ip with
  | .v4 ip => ip.text
  | .v6 ip => "[" ++ ip.text ++ "]"

theorem toList_text : s.text.toList = s.hostText.toList ++ ':' :: Nat.toDigits 10 s.port.toNat := by
  cases hip : s.ip <;> simp [text, hostText, hip, Text.numeralText]

theorem portDigits : PortDigits (Nat.toDigits 10 s.port.toNat) := by
  refine ⟨Nat.toDigits_ne_nil, fun _ => Text.isDigit_of_mem_toDigits (by decide) (by decide), ?_⟩
  rw [Text.value_toDigits (by decide) (by decide)]
  exact Nat.le_of_lt_succ s.port.toNat_lt

theorem writtenHost : WrittenHost s.hostText.toList s.ip.text.toList := by
  cases hip : s.ip with
  | v4 ip =>
    simp only [hostText, hip]
    exact .plain (Or.inr ⟨ip, rfl⟩)
  | v6 ip =>
    have hread : (IpAddress.read? (String.ofList (IpAddress.v6 ip).text.toList)).isSome = true := by
      rw [String.ofList_toList, IpAddress.read?_text]
      rfl
    have htext : s.hostText.toList = '[' :: ((IpAddress.v6 ip).text.toList ++ [']']) := by
      simp [hostText, hip, IpAddress.text]
    rw [htext]
    exact .bracketed (Or.inr hread)

theorem form_text : Form s.text.toList s.ip.text.toList (Nat.toDigits 10 s.port.toNat) := by
  rw [toList_text]
  exact .mk s.writtenHost (.digits s.portDigits)

theorem trimChars_text : Text.trimChars s.text.toList = s.text.toList := by
  apply Text.trimChars_of_not_blank
  have hhost : ∀ c ∈ s.hostText.toList, Text.isBlank c = false := by
    intro c hc
    cases hip : s.ip with
    | v4 ip =>
      simp only [hostText, hip] at hc
      exact IpAddress.isBlank_of_isLetter (ip.letters c hc)
    | v6 ip =>
      have hletters := (IpAddress.v6 ip).letters_text
      simp only [hostText, hip, String.toList_append, List.mem_append] at hc
      rcases hc with (hc | hc) | hc
      · obtain rfl := List.mem_singleton.1 hc
        decide
      · exact IpAddress.isBlank_of_isLetter (hletters c hc)
      · obtain rfl := List.mem_singleton.1 hc
        decide
  intro c hc
  rw [toList_text] at hc
  rcases List.mem_append.1 hc with hc | hc
  · exact hhost c hc
  rcases List.mem_cons.1 hc with rfl | hc
  · decide
  · exact Text.isBlank_of_isDigit (Text.isDigit_mono (by decide) (s.portDigits.digits c hc))

/-- The text of a socket address is read as its host and its port. -/
theorem read_text_eq (defaultHost : String) :
    HostPort.read s.text defaultHost = .ok ⟨s.ip.text, s.port⟩ := by
  have hform : Form (Text.trimChars s.text.toList) s.ip.text.toList
      (Nat.toDigits 10 s.port.toNat) := by
    rw [trimChars_text]
    exact s.form_text
  have hgiven : HostPort.given defaultHost s.ip.text.toList (Nat.toDigits 10 s.port.toNat) =
      ⟨s.ip.text, s.port⟩ := by
    rw [HostPort.given, if_neg s.ip.text_ne_empty, if_neg Nat.toDigits_ne_nil,
      Text.value_toDigits (by decide) (by decide), String.ofList_toList, Nat.toUInt16,
      UInt16.ofNat_toNat]
  rw [← hgiven]
  exact HostPort.read_of_written (Or.inl hform) fun hnil => absurd hnil s.ip.text_ne_empty

end SocketAddress

namespace HostPort

variable {a : HostPort} {spec defaultHost : String}

theorem socketAddress_text (s : SocketAddress) : socketAddress ⟨s.ip.text, s.port⟩ = .ok s := by
  simp only [socketAddress, IpAddress.read?_text]

/-- The host of an address that has been read is an IP address. -/
theorem socketAddress_of_read (h : read spec defaultHost = .ok a) :
    ∃ s, a.socketAddress = .ok s ∧ s.port = a.port := by
  obtain ⟨host, port, -, ha⟩ := read_eq_ok.1 h
  obtain ⟨p, -, hhost, rfl⟩ := assemble_eq_some.1 ha
  obtain ⟨ip, hip⟩ := Option.isSome_iff_exists.1 hhost
  exact ⟨⟨ip, p⟩, by simp only [socketAddress, hip], rfl⟩

theorem start_of_socketAddress {s : SocketAddress} (h : a.socketAddress = .ok s) (n : Network)
    (settings : ServerSettings) (workDir home : String) (e : InvalidAddress) :
    Server.start n { settings with host := a.host, port := a.port } workDir home ≠
      .error (.invalidAddress e) := by
  have hsettings : ({ settings with host := a.host, port := a.port } :
      ServerSettings).address.socketAddress = .ok s := h
  simp only [Server.start, hsettings]
  split <;> simp

/-- Every socket address is read from its text, and its host and port lead back to it. Whatever is
read leads to a socket address with the port that was read, so that a server that is started there
never refuses it as no address. -/
theorem socketAddress_read :
    (∀ (s : SocketAddress) (defaultHost : String),
      read s.text defaultHost = .ok ⟨s.ip.text, s.port⟩ ∧
        socketAddress ⟨s.ip.text, s.port⟩ = .ok s) ∧
    ∀ (spec defaultHost : String) (a : HostPort), read spec defaultHost = .ok a →
      (∃ s, a.socketAddress = .ok s ∧ s.port = a.port) ∧
        ∀ (n : Network) (settings : ServerSettings) (workDir home : String) (e : InvalidAddress),
          Server.start n { settings with host := a.host, port := a.port } workDir home ≠
            .error (.invalidAddress e) := by
  refine ⟨fun s defaultHost => ⟨s.read_text_eq defaultHost, socketAddress_text s⟩, ?_⟩
  intro spec defaultHost a h
  obtain ⟨s, hs, hport⟩ := socketAddress_of_read h
  exact ⟨⟨s, hs, hport⟩, start_of_socketAddress hs⟩

/-- An address whose text leaves zeros out and one that is mapped from IPv4. -/
theorem socketAddress_read_shortened :
    read "[2001:db8::1:0:0:1]:65535" "" = .ok ⟨"2001:db8::1:0:0:1", 65535⟩ ∧
      read "[::ffff:10.0.0.1]:0" "" = .ok ⟨"::ffff:10.0.0.1", 0⟩ ∧
      (∃ s, socketAddress ⟨"::ffff:10.0.0.1", 0⟩ = .ok s ∧ s.port = 0) := by
  have hmapped : read "[::ffff:10.0.0.1]:0" "" = .ok ⟨"::ffff:10.0.0.1", 0⟩ := by decide
  have htext : (SocketAddress.mk (.v6 ⟨#v[0x2001, 0xDB8, 0, 0, 1, 0, 0, 1]⟩) 65535).text =
      "[2001:db8::1:0:0:1]:65535" := by decide
  have hread := (socketAddress_read.1
    ⟨.v6 ⟨#v[0x2001, 0xDB8, 0, 0, 1, 0, 0, 1]⟩, 65535⟩ "").1
  rw [htext] at hread
  exact ⟨hread, hmapped, (socketAddress_read.2 _ _ _ hmapped).1⟩

end HostPort
end PipeShell
