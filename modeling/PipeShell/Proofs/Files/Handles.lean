import Mathlib.Data.List.GetD
import Mathlib.Data.List.Induction
import Mathlib.Logic.Relation
import Mathlib.Order.Nat
import PipeShell.Files.WorkDir

/-! What handles on directories share. Which handles are of one family and what was set last is read
off the history of a run; in every run two handles share a directory exactly if they are of one
family. -/
namespace PipeShell.WorkDirs

/-- What is done with handles. The handle that is made gets the next number. -/
inductive Act
  | fresh (path : String)
  | clone (handle : Nat)
  | set (handle : Nat) (path : String)
  | resolve (handle : Nat) (path : String)
deriving DecidableEq

/-- How many handles have been made. -/
def made : List Act → Nat
  | [] => 0
  | .fresh _ :: acts => made acts + 1
  | .clone _ :: acts => made acts + 1
  | .set _ _ :: acts => made acts
  | .resolve _ _ :: acts => made acts

/-- The handle that an act has made. -/
def MadeBy (acts : List Act) (act : Act) (handle : Nat) : Prop :=
  ∃ before after, acts = before ++ act :: after ∧ handle = made before

/-- The second handle is a clone of the first, or a clone of such a clone, and so on. -/
def Descends (acts : List Act) : Nat → Nat → Prop :=
  Relation.ReflTransGen fun handle clone => MadeBy acts (.clone handle) clone

/-- Handles of one family go back to the same new handle. -/
def Akin (acts : List Act) (a b : Nat) : Prop :=
  ∃ path origin, MadeBy acts (.fresh path) origin ∧ Descends acts origin a ∧ Descends acts origin b

/-- The path that was set last through a handle of the family, or else the one that the family
began with. -/
inductive Latest (acts : List Act) (handle : Nat) : String → Prop
  | set {before after : List Act} {other : Nat} {path : String}
      (hacts : acts = before ++ .set other path :: after) (hakin : Akin acts other handle)
      (hlast : ∀ later p, .set later p ∈ after → ¬ Akin acts later handle) :
      Latest acts handle path
  | start {origin : Nat} {path : String} (horigin : MadeBy acts (.fresh path) origin)
      (hdescends : Descends acts origin handle)
      (hnone : ∀ other p, .set other p ∈ acts → ¬ Akin acts other handle) : Latest acts handle path

/-- Runs from no handle at all. Every act goes through a handle that has been made. -/
inductive Run : List Act → WorkDirs → Prop
  | start : Run [] ⟨[], []⟩
  | fresh {acts : List Act} {w : WorkDirs} (handle : Nat) (path : String) (h : Run acts w) :
      Run (acts ++ [.fresh path]) (w.apply handle (.fresh path))
  | clone {acts : List Act} {w : WorkDirs} {handle : Nat} (h : Run acts w)
      (hmade : handle < made acts) : Run (acts ++ [.clone handle]) (w.apply handle .clone)
  | set {acts : List Act} {w : WorkDirs} {handle : Nat} (path : String) (h : Run acts w)
      (hmade : handle < made acts) :
      Run (acts ++ [.set handle path]) (w.apply handle (.set path))
  | resolve {acts : List Act} {w : WorkDirs} {handle : Nat} (path : String) (h : Run acts w)
      (hmade : handle < made acts) : Run (acts ++ [.resolve handle path]) w

variable {acts before after : List Act} {act : Act} {w : WorkDirs} {a b handle clone : Nat}
  {path : String}

theorem made_append (acts later : List Act) : made (acts ++ later) = made acts + made later := by
  induction acts with
  | nil => exact (Nat.zero_add _).symm
  | cons act acts ih =>
    cases act <;> simp only [List.cons_append, made, ih] <;> omega

theorem made_lt_append (later : List Act) (h : a < made acts) : a < made (acts ++ later) := by
  rw [made_append]
  exact Nat.lt_add_right _ h

/-- A handle that has been made is one of the old ones or the last one. -/
theorem lt_or_eq_made (h : a < made (acts ++ [act])) : a < made acts ∨ a = made acts := by
  have hone : made [act] ≤ 1 := by
    cases act <;> simp [made]
  rw [made_append] at h
  omega

theorem MadeBy.mono (h : MadeBy acts act handle) (later : List Act) :
    MadeBy (acts ++ later) act handle := by
  obtain ⟨before, after, rfl, hhandle⟩ := h
  exact ⟨before, after ++ later, by simp, hhandle⟩

theorem Descends.mono (h : Descends acts a b) (later : List Act) :
    Descends (acts ++ later) a b := by
  induction h with
  | refl => exact .refl
  | tail _ hclone ih => exact ih.tail (hclone.mono later)

theorem Akin.mono (h : Akin acts a b) (later : List Act) : Akin (acts ++ later) a b := by
  obtain ⟨path, origin, horigin, ha, hb⟩ := h
  exact ⟨path, origin, horigin.mono later, ha.mono later, hb.mono later⟩

/-- A handle was made before the last act or by it. -/
theorem MadeBy.cases_last {last : Act} (h : MadeBy (acts ++ [last]) act handle) :
    MadeBy acts act handle ∨ (act = last ∧ handle = made acts) := by
  obtain ⟨before, after, hacts, hhandle⟩ := h
  rcases List.eq_nil_or_concat after with rfl | ⟨after, x, rfl⟩
  · obtain ⟨rfl, hlast⟩ := List.append_inj' hacts rfl
    obtain rfl := List.singleton_inj.1 hlast
    exact Or.inr ⟨rfl, hhandle⟩
  · rw [List.concat_eq_append, ← List.cons_append, ← List.append_assoc] at hacts
    obtain ⟨rfl, -⟩ := List.append_inj' hacts rfl
    exact Or.inl ⟨before, after, rfl, hhandle⟩

theorem MadeBy.init {last : Act} (h : MadeBy (acts ++ [last]) act handle) (hne : act ≠ last) :
    MadeBy acts act handle := by
  rcases h.cases_last with hbefore | ⟨hlast, -⟩
  · exact hbefore
  · exact absurd hlast hne

theorem madeBy_last (acts : List Act) (act : Act) : MadeBy (acts ++ [act]) act (made acts) :=
  ⟨acts, [], rfl, rfl⟩

theorem MadeBy.of_lt {later : List Act} (h : MadeBy (acts ++ later) act handle)
    (hlt : handle < made acts) : MadeBy acts act handle := by
  induction later using List.reverseRecOn with
  | nil => simpa using h
  | append_singleton later last ih =>
    rw [← List.append_assoc] at h
    rcases h.cases_last with hbefore | ⟨-, hhandle⟩
    · exact ih hbefore
    · rw [made_append] at hhandle
      omega

theorem MadeBy.fresh_lt (h : MadeBy acts (.fresh path) a) : a < made acts := by
  obtain ⟨before, after, rfl, rfl⟩ := h
  rw [made_append, made]
  omega

theorem Akin.down {a' b' : Nat} (h : Akin acts a b) (ha : Descends acts a a')
    (hb : Descends acts b b') : Akin acts a' b' := by
  obtain ⟨path, origin, horigin, hfirst, hsecond⟩ := h
  exact ⟨path, origin, horigin, hfirst.trans ha, hsecond.trans hb⟩

/-- Acts that set nothing for the family leave what was set last, also for later clones. -/
theorem Latest.later {later : List Act} (h : Latest acts handle path)
    (hdown : Descends (acts ++ later) handle clone)
    (hback : ∀ other p, .set other p ∈ acts → Akin (acts ++ later) other clone →
      Akin acts other handle)
    (hlater : ∀ other p, .set other p ∈ later → ¬ Akin (acts ++ later) other clone) :
    Latest (acts ++ later) clone path := by
  cases h with
  | @set before after other path hacts hakin hlast =>
    have hall : acts ++ later = before ++ .set other path :: (after ++ later) := by
      rw [hacts, List.append_assoc, List.cons_append]
    refine .set hall ((hakin.mono later).down .refl hdown) ?_
    intro next p hnext
    rcases List.mem_append.1 hnext with hafter | hin
    · intro hclone
      have hmem : Act.set next p ∈ acts := by
        rw [hacts]
        exact List.mem_append_right before (List.mem_cons_of_mem _ hafter)
      exact hlast next p hafter (hback next p hmem hclone)
    · exact hlater next p hin
  | start horigin hdescends hnone =>
    refine .start (horigin.mono later) ((hdescends.mono later).trans hdown) ?_
    intro other p hother
    rcases List.mem_append.1 hother with hin | hin
    · intro hclone
      exact hnone other p hin (hback other p hin hclone)
    · exact hlater other p hin

/-- Of two acts of one history one comes later. -/
theorem eq_or_mem_of_append {before' after' : List Act} {act' : Act}
    (h : before ++ act :: after = before' ++ act' :: after') :
    act = act' ∨ act' ∈ after ∨ act ∈ after' := by
  rcases List.append_eq_append_iff.1 h with ⟨between, -, hbetween⟩ | ⟨between, -, hbetween⟩
  · cases between with
    | nil => exact Or.inl (List.cons.inj hbetween).1
    | cons first between =>
      rw [(List.cons.inj hbetween).2]
      exact Or.inr (Or.inl (by simp))
  · cases between with
    | nil => exact Or.inl (List.cons.inj hbetween).1.symm
    | cons first between =>
      rw [(List.cons.inj hbetween).2]
      exact Or.inr (Or.inr (by simp))

theorem get_apply_set (w : WorkDirs) (path : String) (hsame : w.family handle = w.family a)
    (hfamily : w.family a < w.paths.length) : (w.apply handle (.set path)).get a = path := by
  change (w.paths.set (w.family handle) path).getD (w.family a) "" = path
  rw [hsame]
  simp [hfamily]

theorem get_apply_set_of_ne (w : WorkDirs) (path : String) (hne : w.family handle ≠ w.family a) :
    (w.apply handle (.set path)).get a = w.get a := by
  change (w.paths.set (w.family handle) path).getD (w.family a) "" = w.get a
  simp [hne, get]

namespace Run

theorem length_families (h : Run acts w) : w.families.length = made acts := by
  induction h with
  | start => rfl
  | fresh handle path h ih =>
    rw [made_append, apply, List.length_append, ih]
    rfl
  | clone h hmade ih =>
    rw [made_append, apply, List.length_append, ih]
    rfl
  | set path h hmade ih =>
    rw [made_append, apply]
    exact ih
  | resolve path h hmade ih =>
    rw [made_append]
    exact ih

theorem family_kept (h : Run acts w) (handle : Nat) (step : Step) (ha : a < made acts) :
    (w.apply handle step).family a = w.family a := by
  rw [← h.length_families] at ha
  cases step with
  | set path => rfl
  | fresh path => simp only [apply, family, List.getD_append _ _ _ _ ha]
  | clone => simp only [apply, family, List.getD_append _ _ _ _ ha]

theorem family_fresh (h : Run acts w) (handle : Nat) (path : String) :
    (w.apply handle (.fresh path)).family (made acts) = w.paths.length := by
  simp [apply, family, ← h.length_families]

theorem family_cloned (h : Run acts w) (handle : Nat) :
    (w.apply handle .clone).family (made acts) = w.family handle := by
  simp [apply, family, ← h.length_families]

theorem family_lt (h : Run acts w) (hmade : a < made acts) : w.family a < w.paths.length := by
  induction h generalizing a with
  | start => exact absurd hmade (Nat.not_lt_zero a)
  | @fresh acts w handle path h ih =>
    have hpaths : (w.apply handle (.fresh path)).paths.length = w.paths.length + 1 := by
      simp [apply]
    rcases lt_or_eq_made hmade with hold | rfl
    · have hlt := ih hold
      rw [h.family_kept handle _ hold]
      omega
    · rw [h.family_fresh]
      omega
  | @clone acts w handle h hhandle ih =>
    rcases lt_or_eq_made hmade with hold | rfl
    · rw [h.family_kept handle _ hold]
      exact ih hold
    · rw [h.family_cloned]
      exact ih hhandle
  | set path h hhandle ih =>
    rw [made_append] at hmade
    rw [apply, List.length_set]
    exact ih hmade
  | resolve path h hhandle ih =>
    rw [made_append] at hmade
    exact ih hmade

/-- A new handle is of none of the families that there are. -/
theorem family_ne_fresh (h : Run acts w) (handle : Nat) (path : String) (ha : a < made acts) :
    (w.apply handle (.fresh path)).family a ≠
      (w.apply handle (.fresh path)).family (made acts) := by
  rw [h.family_kept handle _ ha, h.family_fresh]
  exact (h.family_lt ha).ne

theorem get_fresh (h : Run acts w) (handle : Nat) (path : String) :
    (w.apply handle (.fresh path)).get (made acts) = path := by
  rw [get, h.family_fresh]
  simp [apply]

theorem get_fresh_kept (h : Run acts w) (handle : Nat) (path : String) (ha : a < made acts) :
    (w.apply handle (.fresh path)).get a = w.get a := by
  rw [get, h.family_kept handle _ ha]
  exact List.getD_append _ _ _ _ (h.family_lt ha)

theorem get_cloned (h : Run acts w) (handle : Nat) :
    (w.apply handle .clone).get (made acts) = w.get handle := by
  rw [get, h.family_cloned]
  rfl

theorem get_clone_kept (h : Run acts w) (handle : Nat) (ha : a < made acts) :
    (w.apply handle .clone).get a = w.get a := by
  rw [get, h.family_kept handle _ ha]
  rfl

/-- Only handles that have been made are set. -/
theorem set_lt (h : Run acts w) {p : String} (hset : .set a p ∈ acts) : a < made acts := by
  induction h with
  | start => exact absurd hset List.not_mem_nil
  | @fresh acts w handle path h ih =>
    have hin : .set a p ∈ acts := by simpa using hset
    exact made_lt_append _ (ih hin)
  | @clone acts w handle h hhandle ih =>
    have hin : .set a p ∈ acts := by simpa using hset
    exact made_lt_append _ (ih hin)
  | set path h hhandle ih =>
    apply made_lt_append
    rcases List.mem_append.1 hset with hin | hlast
    · exact ih hin
    · obtain ⟨rfl, -⟩ := Act.set.inj (List.mem_singleton.1 hlast)
      exact hhandle
  | @resolve acts w handle path h hhandle ih =>
    have hin : .set a p ∈ acts := by simpa using hset
    exact made_lt_append _ (ih hin)

/-- A clone comes behind the handle that it was cloned from, and is of its family. -/
theorem family_clone (h : Run acts w) (hclone : MadeBy acts (.clone a) b) :
    a < b ∧ b < made acts ∧ w.family a = w.family b := by
  induction h with
  | start =>
    obtain ⟨before, after, hacts, -⟩ := hclone
    simp at hacts
  | @fresh acts w handle path h ih =>
    obtain ⟨hlt, hmade, hfamily⟩ := ih (hclone.init (by simp))
    rw [h.family_kept handle _ hmade, h.family_kept handle _ (hlt.trans hmade)]
    exact ⟨hlt, made_lt_append _ hmade, hfamily⟩
  | @clone acts w handle h hhandle ih =>
    rcases hclone.cases_last with hold | ⟨hact, rfl⟩
    · obtain ⟨hlt, hmade, hfamily⟩ := ih hold
      rw [h.family_kept handle _ hmade, h.family_kept handle _ (hlt.trans hmade)]
      exact ⟨hlt, made_lt_append _ hmade, hfamily⟩
    · obtain rfl := Act.clone.inj hact
      rw [h.family_cloned, h.family_kept a _ hhandle, made_append]
      exact ⟨hhandle, Nat.lt_succ_self _, rfl⟩
  | set path h hhandle ih =>
    rw [made_append]
    exact ih (hclone.init (by simp))
  | resolve path h hhandle ih =>
    rw [made_append]
    exact ih (hclone.init (by simp))

theorem family_descends (h : Run acts w) (hdescends : Descends acts a b) :
    w.family a = w.family b := by
  induction hdescends with
  | refl => rfl
  | tail _ hclone ih => exact ih.trans (h.family_clone hclone).2.2

theorem le_of_descends (h : Run acts w) (hdescends : Descends acts a b) : a ≤ b := by
  induction hdescends with
  | refl => exact Nat.le_refl a
  | tail _ hclone ih => exact ih.trans (h.family_clone hclone).1.le

/-- Later acts give handles that there are no other descent. -/
theorem descends_of_append {later : List Act} (h : Run (acts ++ later) w)
    (hdescends : Descends (acts ++ later) a b) (hmade : b < made acts) : Descends acts a b := by
  induction hdescends with
  | refl => exact .refl
  | tail _ hclone ih => exact (ih ((h.family_clone hclone).1.trans hmade)).tail (hclone.of_lt hmade)

theorem akin_of_append {later : List Act} (h : Run (acts ++ later) w)
    (hakin : Akin (acts ++ later) a b) (ha : a < made acts) (hb : b < made acts) :
    Akin acts a b := by
  obtain ⟨path, origin, horigin, hfirst, hsecond⟩ := hakin
  have hlt : origin < made acts := (h.le_of_descends hfirst).trans_lt ha
  exact ⟨path, origin, horigin.of_lt hlt, h.descends_of_append hfirst ha,
    h.descends_of_append hsecond hb⟩

theorem akin_of_family_eq (h : Run acts w) (ha : a < made acts) (hb : b < made acts)
    (hfamily : w.family a = w.family b) : Akin acts a b := by
  induction h generalizing a b with
  | start => exact absurd ha (Nat.not_lt_zero a)
  | @fresh acts w handle path h ih =>
    rcases lt_or_eq_made ha with ha' | rfl <;> rcases lt_or_eq_made hb with hb' | rfl
    · rw [h.family_kept handle _ ha', h.family_kept handle _ hb'] at hfamily
      exact (ih ha' hb' hfamily).mono _
    · exact absurd hfamily (h.family_ne_fresh handle path ha')
    · exact absurd hfamily.symm (h.family_ne_fresh handle path hb')
    · exact ⟨path, _, madeBy_last acts _, .refl, .refl⟩
  | @clone acts w handle h hhandle ih =>
    -- Every handle comes from one that was there before the clone was made.
    have hold : ∀ x, x < made (acts ++ [.clone handle]) → ∃ y < made acts,
        (w.apply handle .clone).family x = w.family y ∧
          Descends (acts ++ [.clone handle]) y x := by
      intro x hx
      rcases lt_or_eq_made hx with hx' | rfl
      · exact ⟨x, hx', h.family_kept handle _ hx', .refl⟩
      · exact ⟨handle, hhandle, h.family_cloned handle, .single (madeBy_last acts _)⟩
    obtain ⟨a', ha', hfa, hda⟩ := hold a ha
    obtain ⟨b', hb', hfb, hdb⟩ := hold b hb
    rw [hfa, hfb] at hfamily
    exact ((ih ha' hb' hfamily).mono _).down hda hdb
  | set path h hhandle ih =>
    rw [made_append] at ha hb
    exact (ih ha hb hfamily).mono _
  | resolve path h hhandle ih =>
    rw [made_append] at ha hb
    exact (ih ha hb hfamily).mono _

theorem family_eq_of_akin (h : Run acts w) (hakin : Akin acts a b) : w.family a = w.family b := by
  obtain ⟨path, origin, -, hfirst, hsecond⟩ := hakin
  exact (h.family_descends hfirst).symm.trans (h.family_descends hsecond)

/-- Handles share a directory exactly if they are of one family. -/
theorem family_eq_iff (h : Run acts w) (ha : a < made acts) (hb : b < made acts) :
    w.family a = w.family b ↔ Akin acts a b :=
  ⟨h.akin_of_family_eq ha hb, h.family_eq_of_akin⟩

/-- Acts that set nothing for the family of a handle leave what it reads. -/
theorem latest_append {later : List Act} (h : Run acts w) {w' : WorkDirs}
    (h' : Run (acts ++ later) w') (hmade : handle < made acts) (hlatest : Latest acts handle path)
    (hlater : ∀ other p, .set other p ∈ later → ¬ Akin (acts ++ later) other handle) :
    Latest (acts ++ later) handle path := by
  refine hlatest.later .refl ?_ hlater
  intro other p hset hakin
  exact h'.akin_of_append hakin (h.set_lt hset) hmade

theorem latest (h : Run acts w) (hmade : handle < made acts) :
    Latest acts handle (w.get handle) := by
  induction h generalizing handle with
  | start => exact absurd hmade (Nat.not_lt_zero handle)
  | @fresh acts w through path h ih =>
    have h' := Run.fresh through path h
    rcases lt_or_eq_made hmade with hold | rfl
    · rw [h.get_fresh_kept through path hold]
      exact latest_append h h' hold (ih hold) (by simp)
    · rw [h.get_fresh]
      refine .start (madeBy_last acts _) .refl ?_
      intro other p hset hakin
      have hother : other < made acts := h.set_lt (by simpa using hset)
      exact h.family_ne_fresh through path hother (h'.family_eq_of_akin hakin)
  | @clone acts w through h hthrough ih =>
    have h' := Run.clone h hthrough
    rcases lt_or_eq_made hmade with hold | rfl
    · rw [h.get_clone_kept through hold]
      exact latest_append h h' hold (ih hold) (by simp)
    · have hclone : Descends (acts ++ [.clone through]) through (made acts) :=
        .single (madeBy_last acts _)
      rw [h.get_cloned]
      refine (ih hthrough).later hclone ?_ (by simp)
      intro other p hset hakin
      have hother := h.set_lt hset
      have hfamily := h'.family_eq_of_akin hakin
      rw [h.family_cloned, h.family_kept through _ hother] at hfamily
      exact h.akin_of_family_eq hother hthrough hfamily
  | @set acts w through path h hthrough ih =>
    have h' := Run.set path h hthrough
    have hiff := h'.family_eq_iff (made_lt_append _ hthrough) hmade
    rw [made_append] at hmade
    by_cases hfamily : w.family through = w.family handle
    · rw [get_apply_set w path hfamily (h.family_lt hmade)]
      exact .set rfl (hiff.1 hfamily) (by simp)
    · rw [get_apply_set_of_ne w path hfamily]
      refine latest_append h h' hmade (ih hmade) ?_
      intro other p hset hakin
      obtain ⟨rfl, -⟩ := Act.set.inj (List.mem_singleton.1 hset)
      exact hfamily (hiff.2 hakin)
  | @resolve acts w through path h hthrough ih =>
    have h' := Run.resolve path h hthrough
    rw [made_append] at hmade
    exact latest_append h h' hmade (ih hmade) (by simp)

/-- A family begins with one path. -/
theorem fresh_unique (h : Run acts w) {p q : String} (ha : MadeBy acts (.fresh p) a)
    (hb : MadeBy acts (.fresh q) b) (hfamily : w.family a = w.family b) : p = q := by
  induction h with
  | start => exact absurd ha.fresh_lt (Nat.not_lt_zero a)
  | @fresh acts w handle path h ih =>
    rcases ha.cases_last with ha' | ⟨hp, rfl⟩ <;> rcases hb.cases_last with hb' | ⟨hq, rfl⟩
    · rw [h.family_kept handle _ ha'.fresh_lt, h.family_kept handle _ hb'.fresh_lt] at hfamily
      exact ih ha' hb' hfamily
    · exact absurd hfamily (h.family_ne_fresh handle path ha'.fresh_lt)
    · exact absurd hfamily.symm (h.family_ne_fresh handle path hb'.fresh_lt)
    · exact (Act.fresh.inj hp).trans (Act.fresh.inj hq).symm
  | @clone acts w handle h hhandle ih =>
    have ha' := ha.init (by simp)
    have hb' := hb.init (by simp)
    rw [h.family_kept handle _ ha'.fresh_lt, h.family_kept handle _ hb'.fresh_lt] at hfamily
    exact ih ha' hb' hfamily
  | set path h hhandle ih =>
    exact ih (ha.init (by simp)) (hb.init (by simp)) hfamily
  | resolve path h hhandle ih =>
    exact ih (ha.init (by simp)) (hb.init (by simp)) hfamily

theorem latest_unique (h : Run acts w) {p q : String} (hp : Latest acts handle p)
    (hq : Latest acts handle q) : p = q := by
  cases hp with
  | @set before after other p hacts hakin hlast =>
    cases hq with
    | @set before' after' other' q hacts' hakin' hlast' =>
      rcases eq_or_mem_of_append (hacts.symm.trans hacts') with hsame | hlater | hlater
      · exact (Act.set.inj hsame).2
      · exact absurd hakin' (hlast _ _ hlater)
      · exact absurd hakin (hlast' _ _ hlater)
    | start _ _ hnone => exact absurd hakin (hnone other p (by simp [hacts]))
  | start horigin hdescends hnone =>
    cases hq with
    | @set _ _ other q hacts hakin _ => exact absurd hakin (hnone other q (by simp [hacts]))
    | start horigin' hdescends' _ =>
      exact h.fresh_unique horigin horigin'
        ((h.family_descends hdescends).trans (h.family_descends hdescends').symm)

end Run

/-- A server begins with one new handle. -/
theorem run_start (path : String) : Run [.fresh path] (start path) := Run.start.fresh 0 path

/-- In every run a handle reads the path that was set last through any handle of its family, or
else the one that the family began with. Nothing else that is done changes what it reads, and paths
are resolved against it. -/
theorem reads_latest (h : Run acts w) (hmade : handle < made acts) :
    (∀ path, Latest acts handle path ↔ w.get handle = path) ∧
    (∀ later w', Run (acts ++ later) w' →
      (∀ other p, .set other p ∈ later → ¬ Akin (acts ++ later) other handle) →
      w'.get handle = w.get handle) ∧
    (∀ other < made acts, ∀ path,
      (Akin acts other handle → (w.apply other (.set path)).get handle = path) ∧
      (¬ Akin acts other handle → (w.apply other (.set path)).get handle = w.get handle)) ∧
    (∀ other < made acts, (w.apply other .clone).get handle = w.get handle ∧
      (w.apply other .clone).get (made acts) = w.get other) ∧
    (∀ other path, (w.apply other (.fresh path)).get handle = w.get handle ∧
      (w.apply other (.fresh path)).get (made acts) = path) ∧
    ∀ path, w.resolve handle path =
      if PathText.isAbsolute path ∨ w.get handle = "" then path
      else if (w.get handle).toList.getLast? = some '/' then w.get handle ++ path
      else w.get handle ++ "/" ++ path := by
  refine ⟨?_, ?_, ?_, ?_, ?_, ?_⟩
  · intro path
    constructor
    · exact h.latest_unique (h.latest hmade)
    · rintro rfl
      exact h.latest hmade
  · intro later w' h' hlater
    have hread := Run.latest_append h h' hmade (h.latest hmade) hlater
    exact h'.latest_unique (h'.latest (made_lt_append later hmade)) hread
  · intro other hother path
    rw [← h.family_eq_iff hother hmade]
    exact ⟨fun hsame => get_apply_set w path hsame (h.family_lt hmade), get_apply_set_of_ne w path⟩
  · intro other _
    exact ⟨h.get_clone_kept other hmade, h.get_cloned other⟩
  · intro other path
    exact ⟨h.get_fresh_kept other path hmade, h.get_fresh other path⟩
  · intro path
    simp [resolve, PathText.join]

/-- A handle that is cloned from a clone reads what was set before through the clone, and goes on
reading it when a handle of another family is set. -/
theorem reads_latest_clones :
    ∃ w, Run [.fresh "/srv", .clone 0, .fresh "/tmp", .set 1 "/home", .clone 1, .set 2 "/var"] w ∧
      3 < made [.fresh "/srv", .clone 0, .fresh "/tmp", .set 1 "/home", .clone 1, .set 2 "/var"] ∧
      w.get 3 = "/home" ∧ (w.apply 2 (.set "/opt")).get 3 = "/home" ∧
      (w.apply 3 .clone).get 4 = "/home" ∧ (w.apply 0 (.fresh "/mnt")).get 3 = "/home" ∧
      w.resolve 3 "x" = "/home/x" := by
  have h := ((((((run_start "/srv").clone (by decide : 0 < 1)).fresh 0 "/tmp").set "/home"
    (by decide : 1 < 3)).clone (by decide : 1 < 3)).set "/var" (by decide : 2 < 4))
  have hmade : 3 < made [.fresh "/srv", .clone 0, .fresh "/tmp", .set 1 "/home", .clone 1,
    .set 2 "/var"] := by decide
  obtain ⟨hlatest, -, hset, hclone, hfresh, hresolve⟩ := reads_latest h hmade
  have hakin : Akin _ 1 3 := (h.family_eq_iff (by decide) hmade).1 (by decide)
  have happart : ¬ Akin _ 2 3 := (h.family_eq_iff (by decide) hmade).not.1 (by decide)
  have hread := (hlatest "/home").1 (@Latest.set _ _ [.fresh "/srv", .clone 0, .fresh "/tmp"]
    [.clone 1, .set 2 "/var"] 1 "/home" rfl hakin (by
      intro later p hset
      obtain ⟨rfl, rfl⟩ : later = 2 ∧ p = "/var" := by simpa using hset
      exact happart))
  refine ⟨_, h, hmade, hread, ?_, ?_, ?_, ?_⟩
  · exact ((hset 2 (by decide) "/opt").2 happart).trans hread
  · exact (hclone 3 hmade).2.trans hread
  · exact (hfresh 0 "/mnt").1.trans hread
  · rw [hresolve, hread]
    decide

end PipeShell.WorkDirs
