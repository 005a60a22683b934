import PipeShell.Proofs.Files.Resolving

/-! Which program a name stands for: the first one on the search path. A search path that is cut at
a colon is searched like its first part and then like its second. -/
namespace PipeShell

/-- A regular file that may be executed. -/
def Entry.isRunnable : Entry → Bool
  | .file _ executable => executable
  | .program _ => true
  | _ => false

namespace Host

/-- A path that leads to a regular file with a right to execute. Too long a path leads nowhere. -/
structure Executable (h : Host) (path : String) : Prop where
  fits : Utf8.size path ≤ maxPath
  runs : ∃ place entry, h.LeadsTo path place ∧ h.tree.entry? place = some entry ∧
    entry.isRunnable = true

/-- The search path, or what stands for one that is unset or empty. -/
def searchText (h : Host) : String :=
  if h.searchPath.getD "" = "" then "/usr/bin:/bin" else h.searchPath.getD ""

/-- Where a name is looked for in one entry of a search path. -/
def candidateIn (workDir name entry : String) : String :=
  if entry = "" then PathText.join workDir name
  else if PathText.isAbsolute entry then PathText.join entry name
  else PathText.join (PathText.join workDir entry) name

def searching (h : Host) (searchPath : String) : Host := { h with searchPath := some searchPath }

variable {h : Host} {path name workDir : String} {entry : Entry}

theorem entryAt_eq_ok : h.entryAt path = .ok entry ↔ Utf8.size path ≤ maxPath ∧
    ∃ place, h.LeadsTo path place ∧ h.tree.entry? place = some entry := by
  simp only [← resolve_eq_ok]
  by_cases hnul : '\x00' ∈ path.toList
  · have hfails : h.resolve path = .error .nulInPath := if_pos (List.contains_iff_mem.2 hnul)
    simp [entryAt, hnul, hfails, bind, Except.bind]
  by_cases hfits : Utf8.size path ≤ maxPath
  · have hlong : ¬ maxPath < Utf8.size path := Nat.not_lt.2 hfits
    cases hplace : h.resolve path with
    | error e => simp [entryAt, hfits, hlong, hplace, bind, Except.bind]
    | ok place =>
      cases he : h.tree.entry? place <;>
        simp [entryAt, hfits, hlong, hplace, he, bind, Except.bind]
  · simp [entryAt, hnul, hfits, Nat.not_le.1 hfits, bind, Except.bind]

theorem isExecutable_iff : h.isExecutable path = true ↔ h.Executable path := by
  have hentry : h.isExecutable path = true ↔
      ∃ entry, h.entryAt path = .ok entry ∧ entry.isRunnable = true := by
    rw [isExecutable, executableAt]
    cases h.entryAt path with
    | error e => simp [bind, Except.bind, Except.toOption]
    | ok entry =>
      cases entry with
      | file content executable =>
        cases executable <;> simp [bind, Except.bind, Except.toOption, Entry.isRunnable]
      | _ => simp [bind, Except.bind, Except.toOption, Entry.isRunnable]
  simp only [hentry, entryAt_eq_ok]
  constructor
  · rintro ⟨entry, ⟨hfits, place, hleads, he⟩, hrunnable⟩
    exact ⟨hfits, place, entry, hleads, he, hrunnable⟩
  · rintro ⟨hfits, place, entry, hleads, he, hrunnable⟩
    exact ⟨entry, ⟨hfits, place, hleads, he⟩, hrunnable⟩

theorem searchDirectories_eq : h.searchDirectories = PathText.entries h.searchText := by
  rw [searchDirectories, searchText]
  cases h.searchPath with
  | none => rfl
  | some text => by_cases hempty : text = "" <;> simp [hempty, defaultSearchPath]

/-- An empty entry stands for the working directory, and an absolute one for itself. -/
theorem join_join_eq (hname : '/' ∉ name.toList) (workDir entry : String) :
    PathText.join (PathText.join workDir entry) name = candidateIn workDir name entry := by
  have hrelative : PathText.isAbsolute name = false := by
    rw [PathText.isAbsolute, beq_eq_false_iff_ne]
    exact fun hhead => hname (List.mem_of_head? hhead)
  rw [candidateIn]
  split_ifs with hempty habsolute
  · rw [hempty, PathText.join_empty_join workDir hrelative]
  · rw [PathText.join_absolute workDir habsolute]
  · rfl

theorem candidates_slash (hname : '/' ∈ name.toList) :
    h.candidates name workDir = [PathText.join workDir name] :=
  if_pos (List.contains_iff_mem.2 hname)

theorem candidates_plain (hname : '/' ∉ name.toList) : h.candidates name workDir =
    (PathText.entries h.searchText).map (candidateIn workDir name) := by
  rw [candidates, if_neg (mt List.contains_iff_mem.1 hname), searchDirectories_eq]
  exact List.map_congr_left fun entry _ => join_join_eq hname workDir entry

/-- Where a name is searched for does not matter to what may be executed. -/
theorem isExecutable_searching (searchPath : String) :
    (h.searching searchPath).isExecutable = h.isExecutable := rfl

theorem searchText_searching {searchPath : String} (hne : searchPath ≠ "") :
    (h.searching searchPath).searchText = searchPath := by
  simp [searching, searchText, hne]

theorem lookup_searching_colon {first second : String} (hfirst : first ≠ "")
    (hsecond : second ≠ "") : (h.searching (first ++ ":" ++ second)).lookup name workDir =
      ((h.searching first).lookup name workDir).or ((h.searching second).lookup name workDir) := by
  simp only [lookup, isExecutable_searching]
  by_cases hname : '/' ∈ name.toList
  · simp only [candidates_slash hname, Option.or_self]
  · have hboth : first ++ ":" ++ second ≠ "" := by simp [hfirst]
    simp only [candidates_plain hname, searchText_searching hfirst, searchText_searching hsecond,
      searchText_searching hboth, PathText.entries_colon, List.map_append, List.find?_append]

/-- A program is looked up at the first of its candidates that can be executed. A name with a slash
has one candidate, whatever the search path is; any other name has one in each entry of the search
path. So a search path with a colon between two parts is searched like the first part, and if
nothing is found there, like the second. -/
theorem lookup_first (h : Host) (name workDir : String) :
    ('/' ∈ name.toList → h.candidates name workDir = [PathText.join workDir name]) ∧
      ('/' ∉ name.toList → ∃ entries ≠ [], (∀ entry ∈ entries, ':' ∉ entry.toList) ∧
        String.intercalate ":" entries = h.searchText ∧
        h.candidates name workDir = entries.map (candidateIn workDir name)) ∧
      (∀ path, h.lookup name workDir = some path ↔ h.Executable path ∧
        ∃ before after, h.candidates name workDir = before ++ path :: after ∧
          ∀ earlier ∈ before, ¬ h.Executable earlier) ∧
      (h.lookup name workDir = none ↔
        ∀ path ∈ h.candidates name workDir, ¬ h.Executable path) ∧
      ∀ first second, first ≠ "" → second ≠ "" →
        (h.searching (first ++ ":" ++ second)).lookup name workDir =
          ((h.searching first).lookup name workDir).or
            ((h.searching second).lookup name workDir) := by
  refine ⟨candidates_slash, ?_, ?_, ?_, ?_⟩
  · intro hname
    obtain ⟨htext, hne, hcolons⟩ := PathText.intercalate_entries h.searchText
    exact ⟨_, hne, hcolons, htext, candidates_plain hname⟩
  · intro path
    simp only [lookup, List.find?_eq_some_iff_append, Bool.not_eq_true', ← Bool.not_eq_true,
      isExecutable_iff]
  · simp only [lookup, List.find?_eq_none, isExecutable_iff]
  · intro first second hfirst hsecond
    exact lookup_searching_colon hfirst hsecond

/-- A tool, a link to it, and a text of the same name that comes before both on the search path. -/
def stocked : Host where
  tree := { entries := [(["bin"], .directory), (["bin", "tool"], .program []),
    (["w"], .directory), (["w", "tool"], .link "../bin/tool"), (["w", "d"], .directory),
    (["w", "d", "tool"], .file [] false)] }
  searchPath := some "d::/bin"

/-- The text is passed over, and the link is found through the empty entry. -/
theorem lookup_first_stocked :
    '/' ∉ "tool".toList ∧
      stocked.candidates "tool" "/w" = ["/w/d/tool", "/w/tool", "/bin/tool"] ∧
      stocked.lookup "tool" "/w" = some "/w/tool" ∧ stocked.Executable "/w/tool" ∧
      (stocked.searching "d").lookup "tool" "/w" = none ∧
      (stocked.searching "d::/bin").lookup "tool" "/w" =
        (stocked.searching ":/bin").lookup "tool" "/w" := by
  obtain ⟨-, -, hfound, -, hcolon⟩ := lookup_first stocked "tool" "/w"
  have hlookup : stocked.lookup "tool" "/w" = some "/w/tool" := by decide +kernel
  have hfirst : (stocked.searching "d").lookup "tool" "/w" = none := by decide +kernel
  have hboth := hcolon "d" ":/bin" (by decide) (by decide)
  rw [hfirst, Option.none_or] at hboth
  exact ⟨by decide, by decide +kernel, hlookup, ((hfound _).1 hlookup).1, hfirst, hboth⟩

end Host
end PipeShell
