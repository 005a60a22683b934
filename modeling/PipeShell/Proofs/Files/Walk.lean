import Mathlib.Tactic.SplitIfs
import PipeShell.Files.Host
import PipeShell.Proofs.Files.PathText

/-! Where paths lead, told step by step and without a bound on the links that are followed. A walk
is such a course with few enough links. A course may be divided between any two of its steps, and
one that starts with the names of directories goes down to them. -/
namespace PipeShell
namespace Tree

/-- A step that is looked up in a directory. -/
structure Sought (name : String) : Prop where
  nonempty : name ≠ ""
  notHere : name ≠ "."
  notAbove : name ≠ ".."
  short : Utf8.size name ≤ maxName

/-- A name that an entry of a tree may have. -/
structure IsName (name : String) : Prop extends Sought name where
  plain : ∀ c ∈ name.toList, c ≠ '/' ∧ c ≠ '\x00'

instance (name : String) : Decidable (IsName name) :=
  decidable_of_iff (name ≠ "" ∧ name ≠ "." ∧ name ≠ ".." ∧ Utf8.size name ≤ maxName ∧
      name.toList.all fun c => c ≠ '/' ∧ c ≠ '\x00') <| by
    simp only [List.all_eq_true, decide_eq_true_eq]
    exact ⟨fun ⟨hempty, hdot, hup, hshort, hplain⟩ => ⟨⟨hempty, hdot, hup, hshort⟩, hplain⟩,
      fun ⟨⟨hempty, hdot, hup, hshort⟩, hplain⟩ => ⟨hempty, hdot, hup, hshort, hplain⟩⟩

/-- Steps taken from a directory lead to a place, over so many links. -/
inductive Leads (t : Tree) : Place → List String → (links : Nat) → Place → Prop
  | arrived {here : Place} : Leads t here [] 0 here
  | stay {here place : Place} {name : String} {steps : List String} {links : Nat}
      (hname : name = "" ∨ name = ".") (h : Leads t here steps links place) :
      Leads t here (name :: steps) links place
  | up {here place : Place} {steps : List String} {links : Nat}
      (h : Leads t here.dropLast steps links place) : Leads t here (".." :: steps) links place
  | into {here place : Place} {name : String} {steps : List String} {links : Nat}
      (hname : Sought name) (he : t.entry? (here ++ [name]) = some .directory)
      (h : Leads t (here ++ [name]) steps links place) : Leads t here (name :: steps) links place
  | along {here place : Place} {name target : String} {steps : List String} {links : Nat}
      (hname : Sought name) (he : t.entry? (here ++ [name]) = some (.link target))
      (htarget : target ≠ "")
      (h : Leads t (if PathText.isAbsolute target then [] else here)
        (PathText.steps target ++ steps) links place) :
      Leads t here (name :: steps) (links + 1) place
  | last {here : Place} {name : String} {entry : Entry} (hname : Sought name)
      (he : t.entry? (here ++ [name]) = some entry) (hdir : entry ≠ .directory)
      (hlink : ∀ target, entry ≠ .link target) : Leads t here [name] 0 (here ++ [name])

variable {t : Tree} {here place : Place} {steps : List String} {name : String} {links : Nat}

section Walks

variable {follow : Place → List String → Except SystemError Place}

theorem stretch_stay (hname : name = "" ∨ name = ".") :
    stretch t follow here (name :: steps) = stretch t follow here steps := by
  rw [stretch, if_pos]
  simpa using hname

theorem stretch_up :
    stretch t follow here (".." :: steps) = stretch t follow here.dropLast steps := by
  rw [stretch, if_neg (by decide), if_pos (beq_self_eq_true _)]

/-- Every other step is looked up, unless it is too long. -/
theorem stretch_sought (hname : Sought name) : stretch t follow here (name :: steps) =
    match t.entry? (here ++ [name]) with
    | none => .error .notFound
    | some .directory => stretch t follow (here ++ [name]) steps
    | some (.link target) =>
      if target == "" then .error .notFound
      else follow (if PathText.isAbsolute target then [] else here) (PathText.steps target ++ steps)
    | some _ => if steps == [] then .ok (here ++ [name]) else .error .notADirectory := by
  obtain ⟨hempty, hdot, hup, hshort⟩ := hname
  have hstay : ¬ (name == "" || name == ".") = true := by simp [hempty, hdot]
  have habove : ¬ (name == "..") = true := by simp [hup]
  rw [stretch, if_neg hstay, if_neg habove]
  exact if_neg (Nat.not_lt.2 hshort)

theorem stretch_long (hempty : name ≠ "") (hdot : name ≠ ".") (hup : name ≠ "..")
    (hlong : maxName < Utf8.size name) :
    stretch t follow here (name :: steps) = .error .nameTooLong := by
  have hstay : ¬ (name == "" || name == ".") = true := by simp [hempty, hdot]
  have habove : ¬ (name == "..") = true := by simp [hup]
  rw [stretch, if_neg hstay, if_neg habove, if_pos hlong]

/-- A stretch that succeeds is a course, if what takes over at a link only follows courses. -/
theorem leads_of_stretch
    (hfollow : ∀ here steps place, follow here steps = .ok place →
      ∃ n < links, Leads t here steps n place)
    (h : stretch t follow here steps = .ok place) : ∃ n ≤ links, Leads t here steps n place := by
  induction steps generalizing here with
  | nil =>
    obtain rfl := Except.ok.inj h
    exact ⟨0, Nat.zero_le _, .arrived⟩
  | cons name steps ih =>
    by_cases hstay : name = "" ∨ name = "."
    · rw [stretch_stay hstay] at h
      obtain ⟨n, hn, hleads⟩ := ih h
      exact ⟨n, hn, .stay hstay hleads⟩
    by_cases hup : name = ".."
    · subst hup
      rw [stretch_up] at h
      obtain ⟨n, hn, hleads⟩ := ih h
      exact ⟨n, hn, .up hleads⟩
    obtain ⟨hempty, hdot⟩ := not_or.1 hstay
    rcases Nat.lt_or_ge maxName (Utf8.size name) with hlong | hshort
    · rw [stretch_long hempty hdot hup hlong] at h
      cases h
    have hname : Sought name := ⟨hempty, hdot, hup, hshort⟩
    rw [stretch_sought hname] at h
    split at h
    · cases h
    · case h_2 he =>
      obtain ⟨n, hn, hleads⟩ := ih h
      exact ⟨n, hn, .into hname he hleads⟩
    · case h_3 target he =>
      by_cases htarget : target = ""
      · rw [if_pos (beq_iff_eq.2 htarget)] at h
        cases h
      · rw [if_neg (mt beq_iff_eq.1 htarget)] at h
        obtain ⟨n, hn, hleads⟩ := hfollow _ _ _ h
        exact ⟨n + 1, hn, .along hname he htarget hleads⟩
    · case h_4 entry hdir hlink he =>
      split_ifs at h with hend
      obtain rfl := Except.ok.inj h
      obtain rfl := beq_iff_eq.1 hend
      exact ⟨0, Nat.zero_le _, .last hname he hdir hlink⟩

theorem leads_of_walk (h : t.walk links here steps = .ok place) :
    ∃ n ≤ links, Leads t here steps n place := by
  induction links generalizing here steps place with
  | zero => exact leads_of_stretch (fun _ _ _ hloop => by cases hloop) h
  | succ links ih =>
    refine leads_of_stretch (fun here steps place hwalk => ?_) h
    obtain ⟨n, hn, hleads⟩ := ih hwalk
    exact ⟨n, Nat.lt_succ_of_le hn, hleads⟩

variable (t links) in
theorem exists_stretch : ∃ follow, t.walk links = stretch t follow := by
  cases links with
  | zero => exact ⟨_, rfl⟩
  | succ links => exact ⟨_, rfl⟩

theorem walk_of_leads {n : Nat} (h : Leads t here steps n place) (hn : n ≤ links) :
    t.walk links here steps = .ok place := by
  -- A walk is one stretch up to the next link, so only `along` looks at how many links are left.
  induction h generalizing links with
  | arrived =>
    obtain ⟨follow, hwalk⟩ := exists_stretch t links
    rw [hwalk]
    rfl
  | stay hname _ ih =>
    obtain ⟨follow, hwalk⟩ := exists_stretch t links
    rw [hwalk, stretch_stay hname, ← hwalk]
    exact ih hn
  | up _ ih =>
    obtain ⟨follow, hwalk⟩ := exists_stretch t links
    rw [hwalk, stretch_up, ← hwalk]
    exact ih hn
  | into hname he _ ih =>
    obtain ⟨follow, hwalk⟩ := exists_stretch t links
    rw [hwalk, stretch_sought hname, he, ← hwalk]
    exact ih hn
  | along hname he htarget _ ih =>
    cases links with
    | zero => exact absurd hn (Nat.not_succ_le_zero _)
    | succ links =>
      rw [walk, stretch_sought hname, he]
      simp only [beq_iff_eq, htarget, if_false]
      exact ih (Nat.le_of_succ_le_succ hn)
  | @last here name entry hname he hdir hlink =>
    obtain ⟨follow, hwalk⟩ := exists_stretch t links
    rw [hwalk, stretch_sought hname, he]
    cases entry with
    | directory => exact absurd rfl hdir
    | link target => exact absurd rfl (hlink target)
    | file content executable => rfl
    | program actions => rfl

/-- A walk is a course with few enough links. -/
theorem walk_eq_ok :
    t.walk links here steps = .ok place ↔ ∃ n ≤ links, Leads t here steps n place := by
  constructor
  · exact leads_of_walk
  · rintro ⟨n, hn, h⟩
    exact walk_of_leads h hn

end Walks

/-- A place with directories all the way down to it. -/
structure Direct (t : Tree) (place : Place) : Prop where
  names : ∀ name ∈ place, IsName name
  directories : ∀ above, above <+: place → t.entry? above = some .directory

/-- The entries of a tree are found by names. -/
def WellNamed (t : Tree) : Prop := ∀ e ∈ t.entries, ∀ name ∈ e.1, IsName name

theorem names_of_entry {entry : Entry} (ht : t.WellNamed) (he : t.entry? place = some entry) :
    ∀ name ∈ place, IsName name := by
  rw [Tree.entry?] at he
  split_ifs at he with hroot
  · rw [beq_iff_eq.1 hroot]
    exact List.forall_mem_nil _
  · obtain ⟨before, after, hentries, -⟩ := List.lookup_eq_some_iff.1 he
    have hmem : (place, entry) ∈ t.entries := by
      rw [hentries]
      exact List.mem_append_right before List.mem_cons_self
    exact ht _ hmem

namespace Direct

theorem root (t : Tree) : t.Direct [] := by
  refine ⟨List.forall_mem_nil _, ?_⟩
  intro above h
  obtain rfl := List.prefix_nil.1 h
  rfl

/-- Where a link is followed from. -/
theorem orRoot (h : t.Direct place) (absolute : Bool) :
    t.Direct (if absolute then [] else place) := by
  cases absolute with
  | true => exact .root t
  | false => exact h

theorem dropLast (h : t.Direct place) : t.Direct place.dropLast := by
  refine ⟨fun name hname => h.names name (List.dropLast_subset place hname), ?_⟩
  intro above habove
  exact h.directories above (habove.trans (List.dropLast_prefix place))

theorem child (ht : t.WellNamed) (h : t.Direct place)
    (he : t.entry? (place ++ [name]) = some .directory) : t.Direct (place ++ [name]) := by
  refine ⟨names_of_entry ht he, ?_⟩
  intro above habove
  rcases List.prefix_concat_iff.1 habove with rfl | hplace
  · exact he
  · exact h.directories above hplace

theorem isDirectory (h : t.Direct place) : t.isDirectory place = true := by
  rw [Tree.isDirectory, h.directories place (List.prefix_refl place)]
  rfl

end Direct

/-- A course over names of directories alone goes down to them. -/
theorem Leads.down {above rest : Place} (hdirect : t.Direct (above ++ rest))
    (h : Leads t (above ++ rest) steps links place) :
    Leads t above (rest ++ steps) links place := by
  induction rest generalizing above with
  | nil => rwa [List.append_nil] at h
  | cons name rest ih =>
    rw [List.append_cons] at hdirect h
    have hname := hdirect.names name (by simp)
    have he := hdirect.directories (above ++ [name]) (List.prefix_append _ rest)
    exact .into hname.toSought he (ih hdirect h)

/-- From one directory a course leads to another, or to something else at its end. -/
theorem Leads.direct (ht : t.WellNamed) (hhere : t.Direct here)
    (h : Leads t here steps links place) (hdir : t.isDirectory place = true) : t.Direct place := by
  induction h with
  | arrived => exact hhere
  | stay _ _ ih => exact ih hhere hdir
  | up _ ih => exact ih hhere.dropLast hdir
  | into _ he _ ih => exact ih (hhere.child ht he) hdir
  | along _ _ _ _ ih => exact ih (hhere.orRoot _) hdir
  | @last here name entry _ he hentry _ =>
    rw [Tree.isDirectory, he] at hdir
    cases entry with
    | directory => exact absurd rfl hentry
    | file content executable => cases hdir
    | program actions => cases hdir
    | link target => cases hdir

/-- A course that goes on behind some of its steps has come to a directory there. -/
theorem Leads.split (ht : t.WellNamed) (hhere : t.Direct here) {first second : List String}
    (h : Leads t here (first ++ second) links place) (hmore : second ≠ []) :
    ∃ m n between, t.Direct between ∧ Leads t here first m between ∧
      Leads t between second n place ∧ m + n = links := by
  -- At each step either nothing of `first` is left, and the rest of the course is the second half,
  -- or the step belongs to `first`. What a link puts before the steps belongs to `first` as well.
  generalize hsteps : first ++ second = steps at h
  induction h generalizing first with
  | arrived => exact absurd (List.append_eq_nil_iff.1 hsteps).2 hmore
  | stay hname h ih =>
    obtain ⟨rfl, rfl⟩ | ⟨rest, rfl, rfl⟩ := List.append_eq_cons_iff.1 hsteps
    · exact ⟨0, _, _, hhere, .arrived, .stay hname h, Nat.zero_add _⟩
    · obtain ⟨m, n, between, hdirect, hm, hn, hsum⟩ := ih hhere rfl
      exact ⟨m, n, between, hdirect, .stay hname hm, hn, hsum⟩
  | up h ih =>
    obtain ⟨rfl, rfl⟩ | ⟨rest, rfl, rfl⟩ := List.append_eq_cons_iff.1 hsteps
    · exact ⟨0, _, _, hhere, .arrived, .up h, Nat.zero_add _⟩
    · obtain ⟨m, n, between, hdirect, hm, hn, hsum⟩ := ih hhere.dropLast rfl
      exact ⟨m, n, between, hdirect, .up hm, hn, hsum⟩
  | into hname he h ih =>
    obtain ⟨rfl, rfl⟩ | ⟨rest, rfl, rfl⟩ := List.append_eq_cons_iff.1 hsteps
    · exact ⟨0, _, _, hhere, .arrived, .into hname he h, Nat.zero_add _⟩
    · obtain ⟨m, n, between, hdirect, hm, hn, hsum⟩ := ih (hhere.child ht he) rfl
      exact ⟨m, n, between, hdirect, .into hname he hm, hn, hsum⟩
  | along hname he htarget h ih =>
    obtain ⟨rfl, rfl⟩ | ⟨rest, rfl, rfl⟩ := List.append_eq_cons_iff.1 hsteps
    · exact ⟨0, _, _, hhere, .arrived, .along hname he htarget h, Nat.zero_add _⟩
    · obtain ⟨m, n, between, hdirect, hm, hn, hsum⟩ :=
        ih (hhere.orRoot _) (List.append_assoc _ rest second)
      exact ⟨m + 1, n, between, hdirect, .along hname he htarget hm, hn, by omega⟩
  | last hname he hdir hlink =>
    obtain ⟨rfl, rfl⟩ | ⟨rest, rfl, hnone⟩ := List.append_eq_cons_iff.1 hsteps
    · exact ⟨0, _, _, hhere, .arrived, .last hname he hdir hlink, rfl⟩
    · exact absurd (List.append_eq_nil_iff.1 hnone.symm).2 hmore

end Tree
end PipeShell
