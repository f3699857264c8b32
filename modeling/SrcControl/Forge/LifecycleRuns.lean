import SrcControl.Forge.Lifecycle

/-!
# What the startup pass restores

Whatever step the process stopped at, also in the startup pass itself, the pass leaves live
repositories only, each with its directory, its contents and the `HEAD` its row records. It frees
the names of what it rolls back or finishes, and a second pass has nothing to do.
-/

namespace SrcControl.Lifecycle

open RefPolicy (branchRef)

variable {B : Type} {git : Git B} {d d' : Disk B} {id : Nat} {r : Row} {dir : Option (Dir B)}

namespace Disk

@[simp] theorem rows_setRow (row : Option Row) :
    (d.setRow id row).rows = Function.update d.rows id row := rfl

@[simp] theorem next_setRow (row : Option Row) : (d.setRow id row).next = d.next := rfl

@[simp] theorem repos_setRow (row : Option Row) : (d.setRow id row).repos = d.repos := rfl

@[simp] theorem trash_setRow (row : Option Row) : (d.setRow id row).trash = d.trash := rfl

@[simp] theorem rows_setDir : (d.setDir id dir).rows = d.rows := rfl

@[simp] theorem next_setDir : (d.setDir id dir).next = d.next := rfl

@[simp] theorem repos_setDir : (d.setDir id dir).repos = Function.update d.repos id dir := rfl

@[simp] theorem trash_setDir : (d.setDir id dir).trash = d.trash := rfl

@[simp] theorem rows_setTrash : (d.setTrash id dir).rows = d.rows := rfl

@[simp] theorem next_setTrash : (d.setTrash id dir).next = d.next := rfl

@[simp] theorem repos_setTrash : (d.setTrash id dir).repos = d.repos := rfl

@[simp] theorem trash_setTrash : (d.setTrash id dir).trash = Function.update d.trash id dir := rfl

/-- The row of `id` is in the state. -/
def In (d : Disk B) (id : Nat) (state : RepoState) : Prop :=
  ∃ r, d.rows id = some r ∧ r.state = state

theorem guarded_some {old : RepoState} {f : Row → Disk B} :
    (match d.rows id with
      | some r => if r.state = old then some (f r) else none
      | none => none) = some d' ↔ ∃ r, d.rows id = some r ∧ r.state = old ∧ d' = f r := by
  cases hr : d.rows id with
  | none => simp
  | some r =>
    simp only
    split_ifs with hold
    · refine ⟨fun h => ⟨r, rfl, hold, (Option.some.inj h).symm⟩, ?_⟩
      rintro ⟨q, hq, -, rfl⟩
      cases hq
      rfl
    · refine ⟨fun h => absurd h (by simp), ?_⟩
      rintro ⟨q, hq, hold', -⟩
      cases hq
      exact absurd hold' hold

theorem setState_some {old new : RepoState} : d.setState id old new = some d' ↔
    ∃ r, d.rows id = some r ∧ r.state = old ∧ d' = d.setRow id (some { r with state := new }) :=
  guarded_some

theorem updateLive_some {branch : String} : d.updateLive id branch = some d' ↔
    ∃ r, d.rows id = some r ∧ r.state = .live ∧
      d' = d.setRow id (some { r with defaultBranch := branch }) :=
  guarded_some

theorem mem_listInState {state : RepoState} (hbound : ∀ id r, d.rows id = some r → id < d.next) :
    id ∈ d.listInState state ↔ d.In id state := by
  rw [listInState, List.mem_filter, List.mem_range, In]
  cases hr : d.rows id with
  | none => simp
  | some r => simp [hbound id r hr]

end Disk

/-! ## The invariant of the disk -/

/-- Ids are below the sequence, names are unique, and a live repository has its directory. -/
structure Sound (d : Disk B) : Prop where
  bound : ∀ id r, d.rows id = some r → id < d.next
  names : ∀ id id' r r', d.rows id = some r → d.rows id' = some r' → r.owner = r'.owner →
    r.lowerName = r'.lowerName → id = id'
  dirs : ∀ id r, d.rows id = some r → r.state = .live → (d.repos id).isSome

namespace Sound

theorem empty : Sound (.empty : Disk B) :=
  ⟨fun _ _ h => (by cases h), fun _ _ _ _ h => (by cases h), fun _ _ h => (by cases h)⟩

theorem dropRow (h : Sound d) (id : Nat) : Sound (d.setRow id none) := by
  have hold : ∀ i r, (d.setRow id none).rows i = some r → d.rows i = some r := by
    intro i r hi
    rw [Disk.rows_setRow, Function.update_apply] at hi
    split_ifs at hi
    exact hi
  exact ⟨fun i r hi => h.bound i r (hold i r hi), fun i j r r' hi hj =>
    h.names i j r r' (hold i r hi) (hold j r' hj), fun i r hi => h.dirs i r (hold i r hi)⟩

/-- A row changes, but neither its owner nor its name. -/
theorem replaceRow (h : Sound d) {r' : Row} (hr : d.rows id = some r) (howner : r'.owner = r.owner)
    (hname : r'.lowerName = r.lowerName) (hdir : r'.state = .live → (d.repos id).isSome) :
    Sound (d.setRow id (some r')) := by
  have hold : ∀ i q, (d.setRow id (some r')).rows i = some q → ∃ q', d.rows i = some q' ∧
      q'.owner = q.owner ∧ q'.lowerName = q.lowerName := by
    intro i q hi
    rw [Disk.rows_setRow, Function.update_apply] at hi
    split_ifs at hi with heq
    · cases hi
      exact ⟨r, heq ▸ hr, howner.symm, hname.symm⟩
    · exact ⟨q, hi, rfl, rfl⟩
  refine ⟨fun i q hi => ?_, fun i j q q' hi hj ho hn => ?_, fun i q hi hlive => ?_⟩
  · obtain ⟨q', hq', -⟩ := hold i q hi
    exact h.bound i q' hq'
  · obtain ⟨p, hp, hpo, hpn⟩ := hold i q hi
    obtain ⟨p', hp', hpo', hpn'⟩ := hold j q' hj
    exact h.names i j p p' hp hp' (by rw [hpo, hpo', ho]) (by rw [hpn, hpn', hn])
  · rw [Disk.rows_setRow, Function.update_apply] at hi
    split_ifs at hi with heq
    · cases hi
      exact heq ▸ hdir hlive
    · exact h.dirs i q hi hlive

theorem setState {old new : RepoState} (h : Sound d) (hs : d.setState id old new = some d')
    (hdir : new = .live → (d.repos id).isSome) : Sound d' := by
  obtain ⟨r, hr, -, rfl⟩ := Disk.setState_some.mp hs
  exact h.replaceRow hr rfl rfl hdir

theorem updateLive {branch : String} (h : Sound d) (hs : d.updateLive id branch = some d') :
    Sound d' := by
  obtain ⟨r, hr, hlive, rfl⟩ := Disk.updateLive_some.mp hs
  exact h.replaceRow hr rfl rfl (fun _ => h.dirs id r hr hlive)

theorem insertCreating {owner : Nat} {lowerName defaultBranch : String} (h : Sound d)
    (hfree : d.NameFree owner lowerName) :
    Sound (d.insertCreating owner lowerName defaultBranch) := by
  have hold : ∀ i q, (d.insertCreating owner lowerName defaultBranch).rows i = some q →
      (i = d.next ∧ q = ⟨owner, lowerName, defaultBranch, .creating⟩) ∨ d.rows i = some q := by
    intro i q hi
    change Function.update d.rows d.next _ i = some q at hi
    rw [Function.update_apply] at hi
    split_ifs at hi with heq
    · exact .inl ⟨heq, (Option.some.inj hi).symm⟩
    · exact .inr hi
  refine ⟨fun i q hi => ?_, fun i j q q' hi hj ho hn => ?_, fun i q hi hlive => ?_⟩
  · change i < d.next + 1
    rcases hold i q hi with ⟨rfl, -⟩ | hi
    · exact Nat.lt_succ_self _
    · exact Nat.lt_succ_of_lt (h.bound i q hi)
  · rcases hold i q hi with ⟨rfl, rfl⟩ | hi <;> rcases hold j q' hj with ⟨rfl, rfl⟩ | hj
    · rfl
    · exact absurd ⟨ho.symm, hn.symm⟩ (hfree j q' hj)
    · exact absurd ⟨ho, hn⟩ (hfree i q hi)
    · exact h.names i j q q' hi hj ho hn
  · rcases hold i q hi with ⟨-, rfl⟩ | hi
    · cases hlive
    · exact h.dirs i q hi hlive

/-- The directory of a row that is not live changes, or a directory is there still. -/
theorem setDir (h : Sound d) (hdir : dir.isSome ∨ ¬ d.In id .live) : Sound (d.setDir id dir) := by
  refine ⟨h.bound, h.names, fun i q hi hlive => ?_⟩
  rw [Disk.repos_setDir, Function.update_apply]
  split_ifs with heq
  · refine hdir.resolve_right (fun hnot => hnot ⟨q, ?_, hlive⟩)
    rw [← heq]
    exact hi
  · exact h.dirs i q hi hlive

theorem setTrash (h : Sound d) : Sound (d.setTrash id dir) := ⟨h.bound, h.names, h.dirs⟩

theorem toTrash {dir : Dir B} (h : Sound d) (hnot : ¬ d.In id .live) : Sound (d.toTrash id dir) :=
  (h.setDir (.inr hnot)).setTrash

theorem toOrphans {dir : Dir B} (h : Sound d) (hnot : ¬ d.In id .live) :
    Sound (d.toOrphans id dir) := by
  have hmoved : Sound (d.setDir id none) := h.setDir (.inr hnot)
  exact ⟨hmoved.bound, hmoved.names, hmoved.dirs⟩

end Sound

/-! ## The startup pass -/

def AllLive (d : Disk B) : Prop := ∀ id r, d.rows id = some r → r.state = .live

def TrashKnown (d : Disk B) : Prop := ∀ id, (d.trash id).isSome → (d.rows id).isSome

def ReposKnown (d : Disk B) : Prop := ∀ id, (d.repos id).isSome → (d.rows id).isSome

def HeadRight (d : Disk B) (id : Nat) : Prop :=
  ∀ r dir, d.rows id = some r → d.repos id = some dir → dir.head = branchRef r.defaultBranch

/-- What a finished pass leaves. -/
structure Settled (d : Disk B) : Prop where
  live : AllLive d
  trash : TrashKnown d
  repos : ReposKnown d
  heads : ∀ id, HeadRight d id

/-- What a phase has done, and what its loop has still to do. -/
def AtPhase (d : Disk B) : Phase → Prop
  | .creating todo => (∀ id ∈ todo, ∀ r, d.rows id = some r → r.state = .creating) ∧
      ∀ id, d.In id .creating → id ∈ todo
  | .deleting todo => (∀ id ∈ todo, ∀ r, d.rows id = some r → r.state = .deleting) ∧
      ∀ id r, d.rows id = some r → r.state = .live ∨ id ∈ todo
  | .emptying id todo => d.rows id = none ∧
      (∀ id ∈ todo, ∀ r, d.rows id = some r → r.state = .deleting) ∧
      ∀ id r, d.rows id = some r → r.state = .live ∨ id ∈ todo
  | .trash todo => AllLive d ∧ ∀ id, (d.trash id).isSome → (d.rows id).isSome ∨ id ∈ todo
  | .repos todo => AllLive d ∧ TrashKnown d ∧
      ∀ id, (d.repos id).isSome → (d.rows id).isSome ∨ id ∈ todo
  | .live todo => AllLive d ∧ TrashKnown d ∧ ReposKnown d ∧ ∀ id, HeadRight d id ∨ id ∈ todo

theorem AtPhase.start (h : Sound d) : AtPhase d (.creating (d.listInState .creating)) := by
  refine ⟨fun id hid r hr => ?_, fun id hin => (Disk.mem_listInState h.bound).mpr hin⟩
  obtain ⟨r', hr', hstate⟩ := (Disk.mem_listInState h.bound).mp hid
  obtain rfl := Option.some.inj (hr.symm.trans hr')
  exact hstate

namespace Reconcile

variable {p p' : Phase}

theorem sound (h : Reconcile git d p d' p') (hs : Sound d) (hp : AtPhase d p) : Sound d' := by
  cases h with
  | orphanCreating there =>
    refine hs.toOrphans ?_
    rintro ⟨r, hr, hlive⟩
    rw [hp.1 _ List.mem_cons_self r hr] at hlive
    cases hlive
  | rollBack gone => exact hs.dropRow _
  | clearTrash there occupied => exact hs.setTrash
  | rename there free =>
    refine hs.toTrash ?_
    rintro ⟨r, hr, hlive⟩
    rw [hp.1 _ List.mem_cons_self r hr] at hlive
    cases hlive
  | finishDelete gone => exact hs.dropRow _
  | emptied => exact hs.setTrash
  | trashRemoved unknown => exact hs.setTrash
  | orphan unknown there =>
    refine hs.toOrphans ?_
    rintro ⟨r, hr, -⟩
    rw [unknown] at hr
    cases hr
  | headRepaired row there wrong ran => exact hs.setDir (.inl rfl)
  | creatingDone | notEmptied | deletingDone | trashKnown | trashDone | repoKnown | reposDone
  | missingDir | headRight | headFailed => exact hs

/-- The rows of the ids that are left, after the first of them lost its row. -/
theorem rest_dropRow {id : Nat} {todo : List Nat} {state : RepoState}
    (h : ∀ i ∈ id :: todo, ∀ r, d.rows i = some r → r.state = state) :
    ∀ i ∈ todo, ∀ r, (d.setRow id none).rows i = some r → r.state = state := by
  intro i hi r hr
  rw [Disk.rows_setRow, Function.update_apply] at hr
  split_ifs at hr
  exact h i (List.mem_cons_of_mem id hi) r hr

theorem atPhase (hgit : ∀ dir full, (git.symbolicRef dir full).isSome)
    (h : Reconcile git d p d' p') (hs : Sound d) (hp : AtPhase d p) : AtPhase d' p' := by
  cases h with
  | orphanCreating there => exact hp
  | @rollBack id todo gone =>
    refine ⟨rest_dropRow hp.1, fun i hin => ?_⟩
    obtain ⟨r, hr, hstate⟩ := hin
    rw [Disk.rows_setRow, Function.update_apply] at hr
    split_ifs at hr with heq
    exact (List.mem_cons.mp (hp.2 i ⟨r, hr, hstate⟩)).resolve_left heq
  | creatingDone =>
    refine ⟨fun i hi r hr => ?_, fun i r hr => ?_⟩
    · obtain ⟨q, hq, hstate⟩ := (Disk.mem_listInState hs.bound).mp hi
      obtain rfl := Option.some.inj (hr.symm.trans hq)
      exact hstate
    · cases hstate : r.state with
      | creating => exact absurd (hp.2 i ⟨r, hr, hstate⟩) List.not_mem_nil
      | live => exact .inl rfl
      | deleting => exact .inr ((Disk.mem_listInState hs.bound).mpr ⟨r, hr, hstate⟩)
  | clearTrash there occupied => exact hp
  | rename there free => exact hp
  | @finishDelete id todo gone =>
    refine ⟨by rw [Disk.rows_setRow, Function.update_self], rest_dropRow hp.1, fun i r hr => ?_⟩
    rw [Disk.rows_setRow, Function.update_apply] at hr
    split_ifs at hr with heq
    exact (hp.2 i r hr).imp_right (fun hin => (List.mem_cons.mp hin).resolve_left heq)
  | emptied => exact hp.2
  | notEmptied => exact hp.2
  | deletingDone listed =>
    refine ⟨fun i r hr => (hp.2 i r hr).resolve_right List.not_mem_nil, fun i hi => ?_⟩
    exact .inr ((listed i).mpr hi)
  | @trashKnown id todo known =>
    refine ⟨hp.1, fun i hi => ?_⟩
    rcases hp.2 i hi with hrow | hin
    · exact .inl hrow
    · rcases List.mem_cons.mp hin with rfl | hin
      · exact .inl known
      · exact .inr hin
  | @trashRemoved id todo unknown =>
    refine ⟨hp.1, fun i hi => ?_⟩
    rw [Disk.trash_setTrash, Function.update_apply] at hi
    split_ifs at hi with heq
    · cases hi
    · exact (hp.2 i hi).imp_right (fun hin => (List.mem_cons.mp hin).resolve_left heq)
  | trashDone listed =>
    refine ⟨hp.1, fun i hi => (hp.2 i hi).resolve_right List.not_mem_nil, fun i hi => ?_⟩
    exact .inr ((listed i).mpr hi)
  | @repoKnown id todo known =>
    refine ⟨hp.1, hp.2.1, fun i hi => ?_⟩
    rcases hp.2.2 i hi with hrow | hin
    · exact .inl hrow
    · rcases List.mem_cons.mp hin with rfl | hin
      · exact .inl known
      · exact .inr hin
  | @orphan id todo dir unknown there =>
    refine ⟨hp.1, hp.2.1, fun i hi => ?_⟩
    change (Function.update d.repos id none i).isSome at hi
    rw [Function.update_apply] at hi
    split_ifs at hi with heq
    · cases hi
    · exact (hp.2.2 i hi).imp_right (fun hin => (List.mem_cons.mp hin).resolve_left heq)
  | reposDone =>
    refine ⟨hp.1, hp.2.1, fun i hi => (hp.2.2 i hi).resolve_right List.not_mem_nil, fun i => ?_⟩
    cases hr : d.rows i with
    | none =>
      refine .inl (fun r dir h => ?_)
      rw [hr] at h
      cases h
    | some r => exact .inr ((Disk.mem_listInState hs.bound).mpr ⟨r, hr, hp.1 i r hr⟩)
  | @missingDir id todo gone =>
    refine ⟨hp.1, hp.2.1, hp.2.2.1, fun i => ?_⟩
    rcases hp.2.2.2 i with hright | hin
    · exact .inl hright
    · rcases List.mem_cons.mp hin with rfl | hin
      · refine .inl (fun r dir _ h => ?_)
        rw [gone] at h
        cases h
      · exact .inr hin
  | @headRight id todo r dir row there right =>
    refine ⟨hp.1, hp.2.1, hp.2.2.1, fun i => ?_⟩
    rcases hp.2.2.2 i with hright | hin
    · exact .inl hright
    · rcases List.mem_cons.mp hin with rfl | hin
      · refine .inl (fun q dir' hq hdir => ?_)
        obtain rfl := Option.some.inj (row.symm.trans hq)
        obtain rfl := Option.some.inj (there.symm.trans hdir)
        exact right
      · exact .inr hin
  | @headRepaired id todo r dir dir' row there wrong ran =>
    refine ⟨hp.1, hp.2.1, fun i hi => ?_, fun i => ?_⟩
    · rw [Disk.repos_setDir, Function.update_apply] at hi
      split_ifs at hi with heq
      · rw [heq, Disk.rows_setDir, row]
        rfl
      · exact hp.2.2.1 i hi
    · by_cases heq : i = id
      · subst heq
        refine .inl (fun q dir'' hq hdir => ?_)
        rw [Disk.rows_setDir] at hq
        rw [Disk.repos_setDir, Function.update_self] at hdir
        obtain rfl := Option.some.inj (row.symm.trans hq)
        obtain rfl := Option.some.inj hdir
        exact (git.symbolicRef_some _ _ _ ran).1
      · rcases hp.2.2.2 i with hright | hin
        · refine .inl (fun q dir'' hq hdir => ?_)
          rw [Disk.repos_setDir, Function.update_of_ne heq] at hdir
          exact hright q dir'' hq hdir
        · exact .inr ((List.mem_cons.mp hin).resolve_left heq)
  | @headFailed id todo r dir row there wrong failed =>
    have hsome := hgit dir (branchRef r.defaultBranch)
    rw [failed] at hsome
    cases hsome

/-- The pass takes away only rows that are not live. -/
theorem rows (h : Reconcile git d p d' p') (hp : AtPhase d p) (i : Nat) :
    d'.rows i = d.rows i ∨ d'.rows i = none ∧ ∀ r, d.rows i = some r → r.state ≠ .live := by
  cases h with
  | @rollBack id todo gone =>
    rw [Disk.rows_setRow, Function.update_apply]
    split_ifs with heq
    · refine .inr ⟨rfl, fun r hr => ?_⟩
      rw [hp.1 i (heq ▸ List.mem_cons_self) r hr]
      decide
    · exact .inl rfl
  | @finishDelete id todo gone =>
    rw [Disk.rows_setRow, Function.update_apply]
    split_ifs with heq
    · refine .inr ⟨rfl, fun r hr => ?_⟩
      rw [hp.1 i (heq ▸ List.mem_cons_self) r hr]
      decide
    · exact .inl rfl
  | _ => exact .inl rfl

/-- The pass keeps the directories of live repositories, up to `HEAD`. -/
theorem repos (h : Reconcile git d p d' p') (hp : AtPhase d p) {i : Nat} {dir : Dir B}
    (hlive : d.In i .live) (hdir : d.repos i = some dir) :
    ∃ dir', d'.repos i = some dir' ∧ dir'.content = dir.content := by
  have hmoved : ∀ {id : Nat} {todo : List Nat} {state : RepoState}, state ≠ .live →
      (∀ j ∈ id :: todo, ∀ r, d.rows j = some r → r.state = state) → i ≠ id := by
    rintro id todo state hne hall rfl
    obtain ⟨r, hr, hstate⟩ := hlive
    exact hne ((hall i List.mem_cons_self r hr).symm.trans hstate)
  cases h with
  | orphanCreating there =>
    refine ⟨dir, ?_, rfl⟩
    exact (Function.update_of_ne (hmoved (by decide) hp.1) _ _).trans hdir
  | rename there free =>
    refine ⟨dir, ?_, rfl⟩
    exact (Function.update_of_ne (hmoved (by decide) hp.1) _ _).trans hdir
  | orphan unknown there =>
    refine ⟨dir, ?_, rfl⟩
    refine (Function.update_of_ne ?_ _ _).trans hdir
    rintro rfl
    obtain ⟨r, hr, -⟩ := hlive
    rw [unknown] at hr
    cases hr
  | @headRepaired id todo r old dir' row there wrong ran =>
    rw [Disk.repos_setDir, Function.update_apply]
    split_ifs with heq
    · obtain rfl := Option.some.inj (there.symm.trans (heq ▸ hdir))
      exact ⟨dir', rfl, (git.symbolicRef_some _ _ _ ran).2⟩
    · exact ⟨dir, hdir, rfl⟩
  | _ => exact ⟨dir, hdir, rfl⟩

/-- After a finished pass there is nothing to do. -/
theorem unchanged (h : Reconcile git d p d' p') (hp : AtPhase d p) (hd : Settled d) : d' = d := by
  have hrow : ∀ {id : Nat} {todo : List Nat} {state : RepoState}, state ≠ .live →
      (∀ j ∈ id :: todo, ∀ r, d.rows j = some r → r.state = state) → d.rows id = none := by
    intro id todo state hne hall
    cases hr : d.rows id with
    | none => rfl
    | some r => exact absurd ((hall id List.mem_cons_self r hr).symm.trans (hd.live id r hr)) hne
  have hmissing : ∀ {id : Nat} {dir : Dir B}, d.rows id = none → d.repos id ≠ some dir := by
    intro id dir hnone hdir
    have hsome := hd.repos id (by rw [hdir]; rfl)
    rw [hnone] at hsome
    cases hsome
  have hempty : ∀ {id : Nat}, d.rows id = none → d.setTrash id none = d := by
    intro id hnone
    have htrash : d.trash id = none := by
      cases ht : d.trash id with
      | none => rfl
      | some dir =>
        have hsome := hd.trash id (by rw [ht]; rfl)
        rw [hnone] at hsome
        cases hsome
    rw [Disk.setTrash, ← htrash, Function.update_eq_self]
  cases h with
  | orphanCreating there => exact absurd there (hmissing (hrow (by decide) hp.1))
  | rollBack gone => rw [Disk.setRow, ← hrow (by decide) hp.1, Function.update_eq_self]
  | clearTrash there occupied => exact absurd there (hmissing (hrow (by decide) hp.1))
  | rename there free => exact absurd there (hmissing (hrow (by decide) hp.1))
  | finishDelete gone => rw [Disk.setRow, ← hrow (by decide) hp.1, Function.update_eq_self]
  | emptied => exact hempty hp.1
  | trashRemoved unknown => exact hempty unknown
  | orphan unknown there => exact absurd there (hmissing unknown)
  | headRepaired row there wrong ran => exact absurd (hd.heads _ _ _ row there) wrong
  | creatingDone | notEmptied | deletingDone | trashKnown | trashDone | repoKnown | reposDone
  | missingDir | headRight | headFailed => rfl

end Reconcile

/-! ## Every step -/

theorem Disk.In.unique {a b : RepoState} (ha : d.In id a) (hb : d.In id b) : a = b := by
  obtain ⟨r, hr, rfl⟩ := ha
  obtain ⟨q, hq, rfl⟩ := hb
  rw [Option.some.inj (hr.symm.trans hq)]

/-- What the rows and directories are while an operation is under way. -/
def AtProc (d : Disk B) : Proc → Prop
  | .create id .initialized => d.In id .creating ∧ (d.repos id).isSome
  | .create id _ => d.In id .creating
  | .delete id .marked => d.In id .deleting ∧ (d.repos id).isSome
  | .delete id .renamed => d.In id .deleting
  | .reconcile p => AtPhase d p
  | _ => True

theorem AtProc.creating {stage : BuildStage} (h : AtProc d (.create id stage)) :
    d.In id .creating := by
  cases stage with
  | inserted => exact h
  | initialized => exact h.1
  | rollingBack => exact h

theorem AtProc.not_live {stage : BuildStage} (h : AtProc d (.create id stage)) :
    ¬ d.In id .live := fun hlive => by cases h.creating.unique hlive

structure Inv (s : Sys B) : Prop where
  sound : Sound s.disk
  proc : AtProc s.disk s.proc

variable {s s' : Sys B} {e : Event}

theorem Step.inv (hgit : ∀ dir full, (git.symbolicRef dir full).isSome) (h : Step git s e s')
    (hs : Inv s) : Inv s' := by
  obtain ⟨hsound, hproc⟩ := hs
  cases h with
  | crash => exact ⟨hsound, trivial⟩
  | start => exact ⟨hsound, .start hsound⟩
  | reconcile h => exact ⟨h.sound hsound hproc, h.atPhase hgit hsound hproc⟩
  | reconciled => exact ⟨hsound, trivial⟩
  | giveUp busy => exact ⟨hsound, trivial⟩
  | insert free => exact ⟨hsound.insertCreating free, _, Function.update_self .., rfl⟩
  | initPart => exact ⟨hsound.setDir (.inr hproc.not_live), hproc⟩
  | init row =>
    refine ⟨hsound.setDir (.inl rfl), hproc, ?_⟩
    rw [Disk.repos_setDir, Function.update_self]
    rfl
  | commit there =>
    refine ⟨hsound.setDir (.inl rfl), hproc.1, ?_⟩
    rw [Disk.repos_setDir, Function.update_self]
    rfl
  | publish row => exact ⟨hsound.setState row (fun _ => hproc.2), trivial⟩
  | removeDir building => exact ⟨hsound.setDir (.inr hproc.not_live), hproc.creating⟩
  | removeFailed building => exact ⟨hsound.setDir (.inr hproc.not_live), trivial⟩
  | removeRow => exact ⟨hsound.dropRow _, trivial⟩
  | mark row =>
    refine ⟨hsound.setState row (fun h => by cases h), ?_⟩
    obtain ⟨r, hr, hlive, rfl⟩ := Disk.setState_some.mp row
    exact ⟨⟨_, Function.update_self .., rfl⟩, hsound.dirs _ r hr hlive⟩
  | unmark row => exact ⟨hsound.setState row (fun _ => hproc.2), trivial⟩
  | rename there free =>
    exact ⟨hsound.toTrash (fun hlive => by cases hproc.1.unique hlive), hproc.1⟩
  | deleteRow => exact ⟨hsound.dropRow _, trivial⟩
  | removeTrash => exact ⟨hsound.setTrash, trivial⟩
  | writeHead row live other there present ran => exact ⟨hsound.setDir (.inl rfl), trivial⟩
  | recordDefault row => exact ⟨hsound.updateLive row, trivial⟩

theorem Inv.initial : Inv (⟨.empty, .down⟩ : Sys B) := ⟨.empty, trivial⟩

theorem Steps.inv {ok : Event → Prop} (hgit : ∀ dir full, (git.symbolicRef dir full).isSome)
    (h : Steps git ok s s') (hs : Inv s) : Inv s' := by
  induction h with
  | refl => exact hs
  | tail _ _ step ih => exact step.inv hgit ih

/-! ## Live repositories -/

/-- The repository is live, under its name, and has its directory with the content. -/
structure Holds (d : Disk B) (id : Nat) (r : Row) (content : B) : Prop where
  row : ∃ r', d.rows id = some r' ∧ r'.state = .live ∧ r'.owner = r.owner ∧
    r'.lowerName = r.lowerName
  dir : ∃ dir, d.repos id = some dir ∧ dir.content = content

theorem Holds.of_eq {content : B} (h : Holds d id r content) (hrow : d'.rows id = d.rows id)
    (hdir : d'.repos id = d.repos id) : Holds d' id r content := by
  obtain ⟨⟨r', hr', hrest⟩, dir, hd, hcontent⟩ := h
  exact ⟨⟨r', hrow.trans hr', hrest⟩, dir, hdir.trans hd, hcontent⟩

theorem Holds.in_live {content : B} (h : Holds d id r content) : d.In id .live := by
  obtain ⟨⟨r', hr', hlive, -⟩, -⟩ := h
  exact ⟨r', hr', hlive⟩

/-- A row is replaced by a live one with its owner and name. -/
theorem Holds.setRow {content : B} (h : Holds d id r content) {i : Nat} {q q' : Row}
    (hq : d.rows i = some q) (howner : q'.owner = q.owner) (hname : q'.lowerName = q.lowerName)
    (hlive : i = id → q'.state = .live) : Holds (d.setRow i (some q')) id r content := by
  obtain ⟨⟨r', hr', hstate, ho, hn⟩, hdir⟩ := h
  by_cases heq : id = i
  · subst heq
    obtain rfl := Option.some.inj (hq.symm.trans hr')
    exact ⟨⟨q', Function.update_self .., hlive rfl, howner.trans ho, hname.trans hn⟩, hdir⟩
  · exact ⟨⟨r', (Function.update_of_ne heq _ _).trans hr', hstate, ho, hn⟩, hdir⟩

/-- The directory changes of a repository that is not live, or keeps its content. -/
theorem Holds.setDir {content : B} (h : Holds d id r content) {i : Nat} {dir : Option (Dir B)}
    (hdir : i = id → ∃ new, dir = some new ∧ new.content = content) :
    Holds (d.setDir i dir) id r content := by
  obtain ⟨hrow, hkept⟩ := h
  refine ⟨hrow, ?_⟩
  rw [Disk.repos_setDir, Function.update_apply]
  split_ifs with heq
  · exact hdir heq.symm
  · exact hkept

theorem Step.holds (h : Step git s e s') (hs : Inv s) {content : B}
    (hold : Holds s.disk id r content) (he : e ≠ .mark id) : Holds s'.disk id r content := by
  have hnot : ∀ {i : Nat} {state : RepoState}, s.disk.In i state → state ≠ .live → i ≠ id := by
    rintro i state hin hne rfl
    exact hne (hin.unique hold.in_live)
  obtain ⟨hsound, hproc⟩ := hs
  cases h with
  | crash | start | reconciled | giveUp => exact hold
  | @reconcile d d' p p' h =>
    obtain ⟨⟨r', hr', hlive, hrest⟩, dir, hdir, hcontent⟩ := hold
    obtain ⟨dir', hdir', hkept⟩ := h.repos hproc ⟨r', hr', hlive⟩ hdir
    refine ⟨⟨r', ?_, hlive, hrest⟩, dir', hdir', hkept.trans hcontent⟩
    rcases h.rows hproc id with heq | ⟨-, hgone⟩
    · exact heq.trans hr'
    · exact absurd hlive (hgone r' hr')
  | @insert d owner lowerName defaultBranch free =>
    refine hold.of_eq (Function.update_of_ne ?_ _ _) rfl
    obtain ⟨r', hr', -⟩ := hold.in_live
    exact (hsound.bound id r' hr').ne
  | initPart => exact hold.setDir (fun heq => absurd heq (hnot hproc.creating (by decide)))
  | init row => exact hold.setDir (fun heq => absurd heq (hnot hproc.creating (by decide)))
  | commit there => exact hold.setDir (fun heq => absurd heq (hnot hproc.creating (by decide)))
  | publish row =>
    obtain ⟨q, hq, -, rfl⟩ := Disk.setState_some.mp row
    exact hold.setRow hq rfl rfl (fun _ => rfl)
  | removeDir building =>
    exact hold.setDir (fun heq => absurd heq (hnot hproc.creating (by decide)))
  | removeFailed building =>
    exact hold.setDir (fun heq => absurd heq (hnot hproc.creating (by decide)))
  | removeRow =>
    exact hold.of_eq (Function.update_of_ne (hnot hproc.creating (by decide)).symm _ _) rfl
  | mark row =>
    obtain ⟨q, hq, -, rfl⟩ := Disk.setState_some.mp row
    exact hold.setRow hq rfl rfl (fun heq => absurd (congrArg Event.mark heq) he)
  | unmark row =>
    obtain ⟨q, hq, -, rfl⟩ := Disk.setState_some.mp row
    exact hold.setRow hq rfl rfl (fun _ => rfl)
  | rename there free =>
    exact hold.of_eq rfl (Function.update_of_ne (hnot hproc.1 (by decide)).symm _ _)
  | deleteRow => exact hold.of_eq (Function.update_of_ne (hnot hproc (by decide)).symm _ _) rfl
  | removeTrash => exact hold.of_eq rfl rfl
  | @writeHead d i q dir dir' branch row live other there present ran =>
    refine hold.setDir ?_
    rintro rfl
    obtain ⟨-, old, hold', hcontent⟩ := hold
    obtain rfl := Option.some.inj (there.symm.trans hold')
    exact ⟨dir', rfl, (git.symbolicRef_some _ _ _ ran).2.trans hcontent⟩
  | recordDefault row =>
    obtain ⟨q, hq, hlive, rfl⟩ := Disk.updateLive_some.mp row
    exact hold.setRow hq rfl rfl (fun _ => hlive)

/-- No step, the mark of a delete included, moves or removes the directory of a live row. -/
theorem Step.keeps_dir (h : Step git s e s') (hs : Inv s) {content : B}
    (hold : Holds s.disk id r content) :
    ∃ dir, s'.disk.repos id = some dir ∧ dir.content = content := by
  by_cases he : e = .mark id
  · subst he
    cases h with
    | mark row =>
      obtain ⟨q, -, -, rfl⟩ := Disk.setState_some.mp row
      exact hold.dir
  · exact (h.holds hs hold he).dir

theorem Steps.holds (hgit : ∀ dir full, (git.symbolicRef dir full).isSome)
    (h : Steps git (fun e => e ≠ .mark id) s s') (hs : Inv s) {content : B}
    (hold : Holds s.disk id r content) : Holds s'.disk id r content := by
  induction h with
  | refl => exact hold
  | tail run hok step ih => exact step.holds (run.inv hgit hs) ih hok

/-! ## Runs without a request -/

/-- A finished pass has left the disk settled. -/
theorem Inv.settled (hs : Inv s) (hdone : s.proc = .reconcile (.live [])) : Settled s.disk := by
  have hproc := hs.proc
  rw [hdone] at hproc
  obtain ⟨hlive, htrash, hrepos, hheads⟩ := hproc
  exact ⟨hlive, htrash, hrepos, fun id => (hheads id).resolve_right List.not_mem_nil⟩

/-- A row goes only where it is not live, and stays as it is otherwise. -/
theorem Step.quiet_rows (h : Step git s e s') (hs : Inv s) (he : Quiet e) (i : Nat) :
    s'.disk.rows i = s.disk.rows i ∨
      s'.disk.rows i = none ∧ ∀ r, s.disk.rows i = some r → r.state ≠ .live := by
  cases h with
  | crash | start | reconciled => exact .inl rfl
  | reconcile h => exact h.rows hs.proc i
  | _ => exact he.elim

theorem Steps.quiet_rows (hgit : ∀ dir full, (git.symbolicRef dir full).isSome)
    (h : Steps git Quiet s s') (hs : Inv s) (i : Nat) : s'.disk.rows i = s.disk.rows i ∨
      s'.disk.rows i = none ∧ ∀ r, s.disk.rows i = some r → r.state ≠ .live := by
  induction h with
  | refl => exact .inl rfl
  | tail run hok step ih =>
    rcases step.quiet_rows (run.inv hgit hs) hok i with heq | ⟨hnone, hgone⟩
    · rw [heq]
      exact ih
    · refine .inr ⟨hnone, fun r hr => ?_⟩
      rcases ih with heq | ⟨-, hgone'⟩
      · exact hgone r (heq.trans hr)
      · exact hgone' r hr

/-- The names of rows that are not live are free once a pass has finished. -/
theorem Steps.names_free (hgit : ∀ dir full, (git.symbolicRef dir full).isSome)
    (h : Steps git Quiet s s') (hs : Inv s) (hdone : s'.proc = .reconcile (.live []))
    (hr : s.disk.rows id = some r) (hstate : r.state ≠ .live) :
    s'.disk.NameFree r.owner r.lowerName := by
  have hsettled := (h.inv hgit hs).settled hdone
  have hgone : s'.disk.rows id = none := by
    rcases h.quiet_rows hgit hs id with heq | ⟨hnone, -⟩
    · exact absurd (hsettled.live id r (heq.trans hr)) hstate
    · exact hnone
  rintro i q hq ⟨howner, hname⟩
  have hkept : s.disk.rows i = some q := by
    rcases h.quiet_rows hgit hs i with heq | ⟨hnone, -⟩
    · exact heq.symm.trans hq
    · rw [hnone] at hq
      cases hq
  obtain rfl := hs.sound.names i id q r hkept hr howner hname
  rw [hgone] at hq
  cases hq

theorem Step.unchanged (h : Step git s e s') (hs : Inv s) (he : Quiet e)
    (hd : Settled s.disk) : s'.disk = s.disk := by
  cases h with
  | crash | start | reconciled => rfl
  | reconcile h => exact h.unchanged hs.proc hd
  | _ => exact he.elim

theorem Steps.unchanged (hgit : ∀ dir full, (git.symbolicRef dir full).isSome)
    (h : Steps git Quiet s s') (hs : Inv s) (hd : Settled s.disk) : s'.disk = s.disk := by
  induction h with
  | refl => rfl
  | tail run hok step ih =>
    rw [step.unchanged (run.inv hgit hs) hok (by rw [ih]; exact hd), ih]

/-- The row that a delete takes away leaves its name free. -/
theorem Step.deleted_name_free (h : Step git s (.delete id) s') (hs : Inv s)
    (hr : s.disk.rows id = some r) (hgone : s'.disk.rows id = none) :
    s'.disk.NameFree r.owner r.lowerName := by
  rintro i q hq ⟨howner, hname⟩
  have hkept : i ≠ id → s.disk.rows i = some q := by
    intro hne
    cases h with
    | unmark row =>
      obtain ⟨p, -, -, rfl⟩ := Disk.setState_some.mp row
      exact (Function.update_of_ne hne _ _).symm.trans hq
    | deleteRow => exact (Function.update_of_ne hne _ _).symm.trans hq
    | rename | removeTrash => exact hq
  by_cases heq : i = id
  · rw [heq, hgone] at hq
    cases hq
  · exact heq (hs.sound.names i id q r (hkept heq) hr howner hname)

/-- Whenever the startup pass is through, only live repositories are left, each with its directory
and the `HEAD` that its row names, and running the pass again changes nothing. A live repository
keeps its row and its content until a delete of it is marked; a pass frees the names of creates
and deletes that were interrupted, a finished delete frees its name, and no step moves or removes
the directory of a live row. -/
theorem lifecycle_reconciles (git : Git B)
    (hgit : ∀ dir full, (git.symbolicRef dir full).isSome) :
    (∀ s, Reachable git s → s.proc = .reconcile (.live []) →
      (∀ id r, s.disk.rows id = some r → r.state = .live ∧
        ∃ dir, s.disk.repos id = some dir ∧ dir.head = branchRef r.defaultBranch) ∧
      ∀ s', Steps git Quiet s s' → s'.disk = s.disk) ∧
    (∀ s s' id r content, Reachable git s → Holds s.disk id r content →
      Steps git (fun e => e ≠ .mark id) s s' → Holds s'.disk id r content) ∧
    (∀ s s' id r, Reachable git s → s.disk.rows id = some r → r.state ≠ .live →
      Steps git Quiet s s' → s'.proc = .reconcile (.live []) →
        s'.disk.NameFree r.owner r.lowerName) ∧
    (∀ s s' id r, Reachable git s → Step git s (.delete id) s' → s.disk.rows id = some r →
      s'.disk.rows id = none → s'.disk.NameFree r.owner r.lowerName) ∧
    ∀ s e s' id r content, Reachable git s → Step git s e s' → Holds s.disk id r content →
      ∃ dir, s'.disk.repos id = some dir ∧ dir.content = content := by
  have hinv : ∀ {s}, Reachable git s → Inv s := fun h => Steps.inv hgit h .initial
  refine ⟨fun s h hdone => ⟨fun id r hr => ?_, fun s' hrun => ?_⟩, ?_, ?_, ?_, ?_⟩
  · have hsettled := (hinv h).settled hdone
    have hlive := hsettled.live id r hr
    obtain ⟨dir, hdir⟩ := Option.isSome_iff_exists.mp ((hinv h).sound.dirs id r hr hlive)
    exact ⟨hlive, dir, hdir, hsettled.heads id r dir hr hdir⟩
  · exact hrun.unchanged hgit (hinv h) ((hinv h).settled hdone)
  · intro s s' id r content h hold hrun
    exact hrun.holds hgit (hinv h) hold
  · intro s s' id r h hr hstate hrun hdone
    exact hrun.names_free hgit (hinv h) hdone hr hstate
  · intro s s' id r h hstep hr hgone
    exact hstep.deleted_name_free (hinv h) hr hgone
  · intro s e s' id r content h hstep hold
    exact hstep.keeps_dir (hinv h) hold

/-! ## An interrupted create -/

def plainGit : Git Unit :=
  { symbolicRef := fun dir full => some { dir with head := full }
    hasBranch := fun _ _ => false
    symbolicRef_some := fun _ _ _ h => by cases h; exact ⟨rfl, rfl⟩ }

/-- The process stopped right after the row of a create. -/
def stopped : Disk Unit := Disk.empty.insertCreating 1 "r" "main"

theorem Steps.pass {ok : Event → Prop} {p p' : Phase} (h : Steps git ok s ⟨d, .reconcile p⟩)
    (hok : ok .reconcile) (hr : Reconcile git d p d' p') : Steps git ok s ⟨d', .reconcile p'⟩ :=
  .tail h hok (.reconcile hr)

theorem stopped_reachable : Reachable plainGit ⟨stopped, .down⟩ := by
  have hnone : ∀ id, id ∈ ([] : List Nat) ↔ ((Disk.empty : Disk Unit).trash id).isSome := by
    intro id
    exact ⟨fun h => absurd h List.not_mem_nil, fun h => by cases h⟩
  have hstart : Reachable plainGit ⟨.empty, .reconcile (.creating [])⟩ :=
    .tail .refl trivial .start
  have hpass : Reachable plainGit ⟨.empty, .reconcile (.live [])⟩ :=
    (((Steps.pass hstart trivial .creatingDone).pass trivial (.deletingDone hnone)).pass trivial
      (.trashDone hnone)).pass trivial .reposDone
  exact .tail (.tail (.tail hpass trivial .reconciled) trivial
    (@Step.insert _ plainGit .empty 1 "r" "main" (fun _ _ h => by cases h))) trivial .crash

theorem stopped_pass : Steps plainGit Quiet ⟨stopped, .down⟩
    ⟨stopped.setRow 1 none, .reconcile (.live [])⟩ := by
  have hnone : ∀ id, id ∈ ([] : List Nat) ↔ ((stopped.setRow 1 none).trash id).isSome := by
    intro id
    exact ⟨fun h => absurd h List.not_mem_nil, fun h => by cases h⟩
  have hstart : Steps plainGit Quiet ⟨stopped, .down⟩ ⟨stopped, .reconcile (.creating [1])⟩ :=
    @Steps.tail _ _ _ _ _ _ .start .refl trivial .start
  exact ((((hstart.pass trivial (.rollBack rfl)).pass trivial .creatingDone).pass trivial
    (.deletingDone hnone)).pass trivial (.trashDone hnone)).pass trivial .reposDone

/-- The next pass frees the name. -/
theorem lifecycle_reconciles_interrupted : (stopped.setRow 1 none).NameFree 1 "r" :=
  (lifecycle_reconciles plainGit (fun _ _ => rfl)).2.2.1 ⟨stopped, .down⟩ _ 1
    ⟨1, "r", "main", .creating⟩ stopped_reachable rfl (by decide) stopped_pass rfl

end SrcControl.Lifecycle
