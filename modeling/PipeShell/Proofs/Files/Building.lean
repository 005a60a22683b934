import PipeShell.Proofs.Files.Resolving

/-! Trees that are built entry by entry. Each entry is put under names, even where links stand on
the way to it, so that every tree that is built is well named. -/
namespace PipeShell
namespace Tree

variable {t : Tree} {here place : Place} {steps : List String} {links : Nat} {above : List String}

theorem Leads.names (ht : t.WellNamed) (hhere : ∀ name ∈ here, IsName name)
    (h : Leads t here steps links place) : ∀ name ∈ place, IsName name := by
  induction h with
  | arrived => exact hhere
  | stay _ _ ih => exact ih hhere
  | up _ ih => exact ih fun name hname => hhere name (List.dropLast_subset _ hname)
  | into _ he _ ih => exact ih (names_of_entry ht he)
  | along _ _ _ _ ih =>
    refine ih ?_
    split_ifs
    · exact List.forall_mem_nil _
    · exact hhere
  | last _ he _ _ => exact names_of_entry ht he

theorem names_of_resolve (ht : t.WellNamed) (hhere : ∀ name ∈ here, IsName name) {path : String}
    (h : t.resolve here path = .ok place) : ∀ name ∈ place, IsName name := by
  have hleads : ({ tree := t, directory := here } : Host).LeadsTo path place :=
    Host.resolve_eq_ok.1 h
  obtain ⟨links, -, hcourse⟩ := hleads.course
  refine hcourse.names ht ?_
  rw [Host.origin]
  split_ifs
  · exact List.forall_mem_nil _
  · exact hhere

theorem WellNamed.cons (ht : t.WellNamed) (hplace : ∀ name ∈ place, IsName name) (entry : Entry) :
    WellNamed ⟨(place, entry) :: t.entries⟩ := by
  intro e he
  rcases List.mem_cons.1 he with rfl | hrest
  · exact hplace
  · exact ht e hrest

theorem names_concat {parent : Place} {name : String} (hparent : ∀ name ∈ parent, IsName name)
    (hname : IsName name) : ∀ other ∈ parent ++ [name], IsName other :=
  List.forall_mem_append.2 ⟨hparent, List.forall_mem_singleton.2 hname⟩

theorem WellNamed.makeDirectory (ht : t.WellNamed) (habove : ∀ name ∈ above, IsName name) :
    (t.makeDirectory above).1.WellNamed ∧ ∀ name ∈ (t.makeDirectory above).2, IsName name := by
  induction above with
  | nil => exact ⟨ht, List.forall_mem_nil _⟩
  | cons name above ih =>
    obtain ⟨hname, hrest⟩ := List.forall_mem_cons.1 habove
    obtain ⟨hmade, hparent⟩ := ih hrest
    rw [Tree.makeDirectory]
    split
    · case h_1 found hfound =>
      exact ⟨ht, names_of_resolve ht (List.forall_mem_nil _) hfound⟩
    · have hnames := names_concat hparent hname
      exact ⟨hmade.cons hnames _, hnames⟩

theorem names_of_target (ht : t.WellNamed) {parent : Place} {name : String}
    (hparent : ∀ name ∈ parent, IsName name) (hname : IsName name) (entry : Entry) :
    ∀ other ∈ t.target parent name entry, IsName other := by
  have hput := names_concat hparent hname
  cases entry with
  | link target => exact hput
  | directory | file | program =>
    simp only [Tree.target]
    split
    · case h_1 found hfound => exact names_of_resolve ht hparent hfound
    · exact hput

/-- A tree stays well named when an entry is put at a place of names. -/
theorem WellNamed.add (ht : t.WellNamed) (hplace : ∀ name ∈ place, IsName name) (entry : Entry) :
    (t.add place entry).WellNamed := by
  rw [Tree.add]
  have hnames : ∀ name ∈ place.reverse, IsName name := fun name hname =>
    hplace name (List.mem_reverse.1 hname)
  split
  · exact ht
  · case h_2 name above hreverse =>
    rw [hreverse] at hnames
    obtain ⟨hname, habove⟩ := List.forall_mem_cons.1 hnames
    split_ifs
    · exact (ht.makeDirectory hnames).1
    · obtain ⟨hmade, hparent⟩ := ht.makeDirectory habove
      exact hmade.cons (names_of_target hmade hparent hname entry) entry

/-- The tree that some entries give, put there one after the other. -/
def build (entries : List (Place × Entry)) : Tree :=
  entries.foldl (fun t e => t.add e.1 e.2) {}

theorem wellNamed_build {entries : List (Place × Entry)}
    (hentries : ∀ e ∈ entries, ∀ name ∈ e.1, IsName name) : (build entries).WellNamed := by
  refine List.foldlRecOn (motive := WellNamed) entries _ (List.forall_mem_nil _) ?_
  intro t ht e he
  exact ht.add (hentries e he) e.2

end Tree
end PipeShell
