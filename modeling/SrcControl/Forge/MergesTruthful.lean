import SrcControl.Forge.Merges

/-!
# When the journal tells the truth

Between the move of the base branch and the marker, the only evidence of a landing is the base
branch's history, which a push may rewrite. In every run in which no branch moves in a way that
hides or fakes this evidence for a pending merge, what the journal says happened did happen.
-/

namespace SrcControl.Forge

variable {C : Type} {parents : C → List C} {s s' : Repo C}

/-! ## Steps that leave the evidence alone -/

/-- Moving `branch` to `tip` keeps the evidence on every pending merge that has no marker: a
merge commit in the history stays there, and none comes in but as the tip itself, before the
merge is judged absent. -/
def KeepsEvidence (parents : C → List C) (s : Repo C) (branch : String) (tip : Option C) : Prop :=
  ∀ id i, s.rows id = some ⟨i, .pending⟩ → s.landed id = false → i.baseRef = branch →
    (InHistory parents s branch i.mergeOid →
      ∃ new, tip = some new ∧ Ancestor parents i.mergeOid new) ∧
    ∀ new, tip = some new → Ancestor parents i.mergeOid new →
      InHistory parents s branch i.mergeOid ∨ new = i.mergeOid ∧ s.belief ≠ .absent i

/-- A merge commit that the base branch has not had. -/
def Unseen (parents : C → List C) (s : Repo C) (i : Intent C) : Prop :=
  (i.baseRef, i.mergeOid) ∉ s.tips ∧ ¬ InHistory parents s i.baseRef i.mergeOid

/-- The condition on a step. -/
def Clean (parents : C → List C) (s : Repo C) : Event C → Prop
  | .insert i => Unseen parents s i
  | .retarget i => Unseen parents s i
  | .commit i _ => KeepsEvidence parents s i.baseRef (some i.mergeOid)
  | .push branch tip => KeepsEvidence parents s branch tip
  | _ => True

/-! ## The invariant -/

/-- What git shows of a pending merge: the marker only when it landed, and without the marker
the base branch's history exactly when it landed. -/
structure Evidence (parents : C → List C) (s : Repo C) (i : Intent C) : Prop where
  commit : parents i.mergeOid = [i.baseOid, i.headOid]
  marked : s.landed i.id = true → (i.baseRef, i.mergeOid) ∈ s.tips
  unmarked : s.landed i.id = false →
    ((i.baseRef, i.mergeOid) ∈ s.tips ↔ InHistory parents s i.baseRef i.mergeOid)

/-- What a finished intent stands for. -/
structure Finished (parents : C → List C) (s : Repo C) (i : Intent C) : Prop where
  tip : (i.baseRef, i.mergeOid) ∈ s.tips
  parent : i.headOid ∈ parents i.mergeOid
  pull : ∃ p, s.pulls i.pullNumber = some p ∧ p.state = .merged i.mergeOid

structure Inv (parents : C → List C) (s : Repo C) : Prop where
  ids : ∀ id r, s.rows id = some r → r.intent.id = id
  marker : ∀ id, s.landed id = true → s.rows id ≠ none
  pending : ∀ id i, s.rows id = some ⟨i, .pending⟩ → Evidence parents s i
  done : ∀ id i, s.rows id = some ⟨i, .done⟩ → Finished parents s i
  told : ∀ i, s.belief = .landed i →
    s.rows i.id = some ⟨i, .pending⟩ ∧ (i.baseRef, i.mergeOid) ∈ s.tips
  denied : ∀ i, s.belief = .absent i →
    s.rows i.id = some ⟨i, .pending⟩ ∧ s.landed i.id = false ∧ (i.baseRef, i.mergeOid) ∉ s.tips
  merged : ∀ n ∈ s.merges, ∃ p, s.pulls n = some p ∧ p.isMerged
  once : s.merges.Nodup

theorem rows_setRow (s : Repo C) (i : Intent C) (state : IntentState) (id : Nat) :
    (setRow s i state).rows id = if id = i.id then some ⟨i, state⟩ else s.rows id := by
  simp [setRow, Function.update_apply]

namespace Inv

/-- A row is written, and the gate's holder forgets what it was told. -/
theorem setRow (h : Inv parents s) {i : Intent C} {state : IntentState}
    (hpending : state = .pending → Evidence parents s i)
    (hdone : state = .done → Finished parents s i) :
    Inv parents { setRow s i state with belief := .nothing } where
  ids id r hr := by
    replace hr : (Forge.setRow s i state).rows id = some r := hr
    rw [rows_setRow] at hr
    split_ifs at hr with hid
    · cases hr
      exact hid.symm
    · exact h.ids id r hr
  marker id hl hnone := by
    replace hnone : (Forge.setRow s i state).rows id = none := hnone
    rw [rows_setRow] at hnone
    split_ifs at hnone
    exact h.marker id hl hnone
  pending id j hj := by
    replace hj : (Forge.setRow s i state).rows id = some ⟨j, .pending⟩ := hj
    rw [rows_setRow] at hj
    split_ifs at hj with hid
    · cases hj
      obtain ⟨hc, hm, hu⟩ := hpending rfl
      exact ⟨hc, hm, hu⟩
    · obtain ⟨hc, hm, hu⟩ := h.pending id j hj
      exact ⟨hc, hm, hu⟩
  done id j hj := by
    replace hj : (Forge.setRow s i state).rows id = some ⟨j, .done⟩ := hj
    rw [rows_setRow] at hj
    split_ifs at hj with hid
    · cases hj
      obtain ⟨ht, hp, hm⟩ := hdone rfl
      exact ⟨ht, hp, hm⟩
    · obtain ⟨ht, hp, hm⟩ := h.done id j hj
      exact ⟨ht, hp, hm⟩
  told j hj := by cases hj
  denied j hj := by cases hj
  merged := h.merged
  once := h.once

/-- Only what runs and what the gate's holder was told changes. -/
theorem believe (h : Inv parents s) {running : List (Intent C)} {belief : Belief C}
    (htold : ∀ i, belief = .landed i →
      s.rows i.id = some ⟨i, .pending⟩ ∧ (i.baseRef, i.mergeOid) ∈ s.tips)
    (hdenied : ∀ i, belief = .absent i → s.rows i.id = some ⟨i, .pending⟩ ∧
      s.landed i.id = false ∧ (i.baseRef, i.mergeOid) ∉ s.tips) :
    Inv parents { s with running := running, belief := belief } where
  ids := h.ids
  marker := h.marker
  pending id i hi := ⟨(h.pending id i hi).commit, (h.pending id i hi).marked,
    (h.pending id i hi).unmarked⟩
  done id i hi := ⟨(h.done id i hi).tip, (h.done id i hi).parent, (h.done id i hi).pull⟩
  told := htold
  denied := hdenied
  merged := h.merged
  once := h.once

theorem mem_tips_move {branch b : String} {tip : Option C} {c : C} :
    (b, c) ∈ (moveBranch s branch tip).tips ↔ (b = branch ∧ tip = some c) ∨ (b, c) ∈ s.tips := by
  cases tip with
  | none => simp [moveBranch]
  | some t => simp [moveBranch, eq_comm]

theorem inHistory_move {branch b : String} {tip : Option C} {c : C} :
    InHistory parents (moveBranch s branch tip) b c ↔
      if b = branch then ∃ new, tip = some new ∧ Ancestor parents c new
      else InHistory parents s b c := by
  unfold InHistory moveBranch
  dsimp only
  rw [Function.update_apply]
  split_ifs <;> rfl

/-- A branch moves without touching the evidence. -/
theorem move (h : Inv parents s) {branch : String} {tip : Option C}
    (hkeeps : KeepsEvidence parents s branch tip) : Inv parents (moveBranch s branch tip) where
  ids := h.ids
  marker := h.marker
  pending id i hi := by
    obtain ⟨hc, hm, hu⟩ := h.pending id i hi
    have hid : i.id = id := h.ids id _ hi
    refine ⟨hc, fun hl => mem_tips_move.mpr (.inr (hm hl)), fun hl => ?_⟩
    replace hl : s.landed i.id = false := hl
    rw [mem_tips_move, inHistory_move]
    split_ifs with hb
    · obtain ⟨hkept, hnew⟩ := hkeeps id i hi (hid ▸ hl) hb
      constructor
      · rintro (⟨-, htip⟩ | hin)
        · exact ⟨i.mergeOid, htip, .refl⟩
        · exact hkept (hb ▸ (hu hl).mp hin)
      · rintro ⟨new, htip, hanc⟩
        rcases hnew new htip hanc with hin | ⟨rfl, -⟩
        · exact .inr ((hu hl).mpr (hb ▸ hin))
        · exact .inl ⟨hb, htip⟩
    · rw [← hu hl]
      constructor
      · rintro (⟨hb', -⟩ | hin)
        · exact absurd hb' hb
        · exact hin
      · exact .inr
  done id i hi := by
    obtain ⟨ht, hp, hm⟩ := h.done id i hi
    exact ⟨mem_tips_move.mpr (.inr ht), hp, hm⟩
  told i hi := ⟨(h.told i hi).1, mem_tips_move.mpr (.inr (h.told i hi).2)⟩
  denied i hi := by
    obtain ⟨hrow, hl, hout⟩ := h.denied i hi
    refine ⟨hrow, hl, fun hin => ?_⟩
    rcases mem_tips_move.mp hin with ⟨hb, htip⟩ | hin
    · rcases (hkeeps i.id i hrow hl hb).2 i.mergeOid htip .refl with hold | ⟨-, hbelief⟩
      · exact hout (((h.pending i.id i hrow).unmarked hl).mpr (hb ▸ hold))
      · exact hbelief hi
    · exact hout hin
  merged := h.merged
  once := h.once

theorem mark (h : Inv parents s) {i : Intent C} (hi : s.belief = .landed i) :
    Inv parents (markLanded s i) where
  ids := h.ids
  marker id hl := by
    by_cases hid : id = i.id
    · rw [hid]
      exact fun hnone => by
        rw [show (markLanded s i).rows = s.rows from rfl, (h.told i hi).1] at hnone
        cases hnone
    · refine h.marker id ?_
      simpa [markLanded, Function.update_apply, hid] using hl
  pending id j hj := by
    obtain ⟨hc, hm, hu⟩ := h.pending id j hj
    have hid : j.id = id := h.ids id _ hj
    obtain ⟨hrow, htip⟩ := h.told i hi
    by_cases heq : j.id = i.id
    · have hsame : j = i := by
        replace hj : s.rows id = some ⟨j, .pending⟩ := hj
        rw [← hid, heq, hrow] at hj
        cases hj
        rfl
      subst hsame
      refine ⟨hc, fun _ => htip, fun hl => ?_⟩
      simp [markLanded] at hl
    · refine ⟨hc, fun hl => hm ?_, fun hl => hu ?_⟩
      · simpa [markLanded, Function.update_apply, heq] using hl
      · simpa [markLanded, Function.update_apply, heq] using hl
  done id j hj := ⟨(h.done id j hj).tip, (h.done id j hj).parent, (h.done id j hj).pull⟩
  told := h.told
  denied j hj := by
    rw [show (markLanded s i).belief = s.belief from rfl, hi] at hj
    cases hj
  merged := h.merged
  once := h.once

theorem edit (h : Inv parents s) {n : Nat} {p : Pull C}
    (hun : ∀ q, s.pulls n = some q → ¬ q.isMerged) :
    Inv parents { s with pulls := Function.update s.pulls n (some p) } where
  ids := h.ids
  marker := h.marker
  pending id i hi := ⟨(h.pending id i hi).commit, (h.pending id i hi).marked,
    (h.pending id i hi).unmarked⟩
  done id i hi := by
    obtain ⟨ht, hp, q, hq, hm⟩ := h.done id i hi
    have hne : i.pullNumber ≠ n := fun heq => hun q (heq ▸ hq) ⟨_, hm⟩
    exact ⟨ht, hp, q, by simpa [Function.update_apply, hne] using hq, hm⟩
  told := h.told
  denied := h.denied
  merged m hm := by
    obtain ⟨q, hq, hmerged⟩ := h.merged m hm
    have hne : m ≠ n := fun heq => hun q (heq ▸ hq) hmerged
    exact ⟨q, by simpa [Function.update_apply, hne] using hq, hmerged⟩
  once := h.once

/-- The pull request of a landed merge becomes merged. -/
theorem setMerged (h : Inv parents s) {n : Nat} {p : Pull C} {c : C} (hp : s.pulls n = some p)
    (hopen : p.state = .opened) :
    Inv parents { s with
      pulls := Function.update s.pulls n (some { p with state := .merged c })
      merges := n :: s.merges } := by
  have hun : ∀ q, s.pulls n = some q → ¬ q.isMerged := by
    rintro q hq ⟨c', hc'⟩
    rw [hp] at hq
    cases hq
    rw [hopen] at hc'
    cases hc'
  have hedit := h.edit (p := { p with state := .merged c }) hun
  refine ⟨hedit.ids, hedit.marker, fun id i hi => ?_, fun id i hi => ?_, hedit.told, hedit.denied,
    ?_, List.nodup_cons.mpr ⟨fun hin => ?_, h.once⟩⟩
  · obtain ⟨hc, hm, hu⟩ := hedit.pending id i hi
    exact ⟨hc, hm, hu⟩
  · obtain ⟨ht, hpar, hm⟩ := hedit.done id i hi
    exact ⟨ht, hpar, hm⟩
  · intro m hm
    rcases List.mem_cons.mp hm with rfl | hm
    · exact ⟨_, Function.update_self _ _ _, c, rfl⟩
    · exact hedit.merged m hm
  · obtain ⟨q, hq, hmerged⟩ := h.merged n hin
    exact hun q hq hmerged

theorem dropMarker (h : Inv parents s) {id : Nat}
    (hstale : ∀ r, s.rows id = some r → r.state ≠ .pending) :
    Inv parents { s with landed := Function.update s.landed id false } where
  ids := h.ids
  marker m hm := by
    refine h.marker m ?_
    by_cases hid : m = id
    · simp [hid] at hm
    · simpa [Function.update_apply, hid] using hm
  pending m i hi := by
    obtain ⟨hc, hl, hu⟩ := h.pending m i hi
    have hne : i.id ≠ id := by
      intro heq
      have hm : i.id = m := h.ids m _ hi
      exact hstale ⟨i, .pending⟩ (heq ▸ hm ▸ hi) rfl
    refine ⟨hc, fun hm => hl ?_, fun hm => hu ?_⟩
    · simpa [Function.update_apply, hne] using hm
    · simpa [Function.update_apply, hne] using hm
  done m i hi := ⟨(h.done m i hi).tip, (h.done m i hi).parent, (h.done m i hi).pull⟩
  told := h.told
  denied i hi := by
    obtain ⟨hrow, hl, hout⟩ := h.denied i hi
    refine ⟨hrow, ?_, hout⟩
    by_cases hid : i.id = id
    · simp [hid]
    · simpa [Function.update_apply, hid] using hl
  merged := h.merged
  once := h.once

end Inv

theorem inv_initial (h : Initial s) : Inv parents s where
  ids id r hr := by
    rw [h.rows] at hr
    cases hr
  marker id hl := by
    rw [h.landed] at hl
    cases hl
  pending id i hi := by
    rw [h.rows] at hi
    cases hi
  done id i hi := by
    rw [h.rows] at hi
    cases hi
  told i hi := by
    rw [h.belief] at hi
    cases hi
  denied i hi := by
    rw [h.belief] at hi
    cases hi
  merged n hn := by
    rw [h.merges] at hn
    cases hn
  once := h.merges ▸ List.nodup_nil

theorem inv_step [DecidableEq C] (h : Inv parents s) {e : Event C} (hclean : Clean parents s e)
    (hs : Step parents s e s') : Inv parents s' := by
  cases hs with
  | @insert i settled fresh commit =>
    refine h.setRow (fun _ => ⟨commit, fun hl => ?_, fun _ => ?_⟩) (fun hd => by cases hd)
    · exact absurd fresh (h.marker i.id hl)
    · exact ⟨fun hin => absurd hin hclean.1, fun hin => absurd hin hclean.2⟩
  | @retarget i j row told same commit =>
    refine h.setRow (fun _ => ⟨commit, fun hl => ?_, fun _ => ?_⟩) (fun hd => by cases hd)
    · rw [same.1, (h.denied i told).2.1] at hl
      cases hl
    · exact ⟨fun hin => absurd hin hclean.1, fun hin => absurd hin hclean.2⟩
  | publish row told => exact h.believe h.told h.denied
  | @commit i seen running head base waiting =>
    have hmoved := h.move hclean
    refine hmoved.believe (fun j hj => ?_) (fun j hj => ?_)
    · cases seen with
      | true =>
        cases hj
        exact ⟨(waiting rfl).1, Inv.mem_tips_move.mpr (.inl ⟨rfl, rfl⟩)⟩
      | false => exact hmoved.told j hj
    · cases seen with
      | true => cases hj
      | false => exact hmoved.denied j hj
  | killed => exact h.believe h.told h.denied
  | @askLanded i row answer =>
    refine h.believe (fun j hj => ?_) (fun j hj => by cases hj)
    cases hj
    refine ⟨row, ?_⟩
    cases hl : s.landed i.id with
    | true => exact (h.pending i.id i row).marked hl
    | false =>
      refine ((h.pending i.id i row).unmarked hl).mpr (answer.resolve_left ?_)
      rw [hl]
      simp
  | @askAbsent i row answer =>
    refine h.believe (fun j hj => by cases hj) (fun j hj => ?_)
    cases hj
    have hl : s.landed i.id = false := by
      cases hl : s.landed i.id with
      | true => exact absurd (.inl hl) answer
      | false => rfl
    exact ⟨row, hl, fun hin =>
      answer (.inr (((h.pending i.id i row).unmarked hl).mp hin))⟩
  | mark told => exact h.mark told
  | @finalize s'' i told rows =>
    obtain ⟨row, htip⟩ := h.told i told
    have hparent : i.headOid ∈ parents i.mergeOid := by
      rw [(h.pending i.id i row).commit]
      simp
    unfold finalizeRows at rows
    split at rows
    · cases rows
    · next p hp =>
      split_ifs at rows with hopen hsame
      · cases rows
        refine (h.setMerged hp hopen.1).setRow (fun hd => by cases hd) (fun _ => ?_)
        exact ⟨htip, hparent, _, Function.update_self _ _ _, rfl⟩
      · cases rows
        exact h.setRow (fun hd => by cases hd) (fun _ => ⟨htip, hparent, p, hp, hsame⟩)
  | abort told => exact h.setRow (fun hd => by cases hd) (fun hd => by cases hd)
  | leave => exact h.believe (fun j hj => by cases hj) (fun j hj => by cases hj)
  | push => exact h.move hclean
  | edit unmerged result => exact h.edit unmerged
  | dropMarker stale => exact h.dropMarker stale

theorem inv_run [DecidableEq C] (h : Run parents (Clean parents) s) : Inv parents s := by
  induction h with
  | start h => exact inv_initial h
  | step _ hok hs ih => exact inv_step ih hok hs

/-- An intent that is done landed, with the recorded head as a parent, and its pull request is
merged with that commit; no pull request was merged twice. -/
structure Truthful (parents : C → List C) (s : Repo C) : Prop where
  done : ∀ id i, s.rows id = some ⟨i, .done⟩ → Finished parents s i
  once : s.merges.Nodup

/-- The step marks an intent aborted whose merge commit the base branch has had. -/
def AbortsLanded (s s' : Repo C) : Prop :=
  ∃ id i, s.rows id = some ⟨i, .pending⟩ ∧ s'.rows id = some ⟨i, .aborted⟩ ∧
    (i.baseRef, i.mergeOid) ∈ s.tips

/-- In every run that leaves the evidence alone the journal tells the truth, and no step that
may follow aborts a merge that landed. -/
theorem journal_truthful [DecidableEq C] (h : Run parents (Clean parents) s) :
    Truthful parents s ∧ ∀ e s', Step parents s e s' → ¬ AbortsLanded s s' := by
  have hinv := inv_run h
  refine ⟨⟨hinv.done, hinv.once⟩, fun e s' hs => ?_⟩
  rintro ⟨id, i, hrow, hrow', htip⟩
  cases hs with
  | @abort j told =>
    obtain ⟨hj, -, hout⟩ := hinv.denied j told
    replace hrow' : (setRow s j .aborted).rows id = some ⟨i, .aborted⟩ := hrow'
    rw [rows_setRow] at hrow'
    split_ifs at hrow' with hid
    · cases hrow'
      exact hout htip
    · rw [hrow] at hrow'
      cases hrow'
  | insert settled fresh commit => exact settled id _ hrow rfl
  | @retarget j k row told same commit =>
    replace hrow' : (setRow s k .pending).rows id = some ⟨i, .aborted⟩ := hrow'
    rw [rows_setRow] at hrow'
    split_ifs at hrow'
    · cases hrow'
    · rw [hrow] at hrow'
      cases hrow'
  | @finalize s'' j told rows =>
    have hrows : ∃ t : Repo C, t.rows = s.rows ∧ s''.rows = (setRow t j .done).rows := by
      unfold finalizeRows at rows
      split at rows
      · cases rows
      · split_ifs at rows
        · cases rows
          exact ⟨_, rfl, rfl⟩
        · cases rows
          exact ⟨s, rfl, rfl⟩
    obtain ⟨t, ht, hrows⟩ := hrows
    replace hrow' : s''.rows id = some ⟨i, .aborted⟩ := hrow'
    rw [hrows, rows_setRow] at hrow'
    split_ifs at hrow'
    · cases hrow'
    · rw [ht, hrow] at hrow'
      cases hrow'
  | _ =>
    replace hrow' : s.rows id = some ⟨i, .aborted⟩ := hrow'
    rw [hrow] at hrow'
    cases hrow'

/-! ## A merge, and a push between its landing and its marker -/

/-- Commit 2 merges the head 1 into the base 0. -/
def mergeParents : Nat → List Nat
  | 2 => [0, 1]
  | _ => []

def firstMerge : Intent Nat := ⟨1, 1, "main", "topic", 0, 1, 2⟩

def openRepo : Repo Nat where
  branches b := if b = "main" then some 0 else if b = "topic" then some 1 else none
  landed _ := false
  rows _ := none
  pulls n := if n = 1 then some ⟨.opened, "main", "topic"⟩ else none
  running := []
  belief := .nothing
  tips := [("main", 0), ("topic", 1)]
  merges := []

theorem openRepo_initial : Initial openRepo := ⟨fun _ => rfl, fun _ => rfl, rfl, rfl⟩

theorem root_ancestor {c t : Nat} (h : Ancestor mergeParents c t) (ht : t ≠ 2) : c = t := by
  cases h.cases_tail with
  | inl heq => exact heq.symm
  | inr hstep =>
    obtain ⟨b, -, hb⟩ := hstep
    unfold mergeParents at hb
    split at hb
    · exact absurd rfl ht
    · cases hb

def journaled : Repo Nat := { setRow openRepo firstMerge .pending with belief := .nothing }

def publishing : Repo Nat := { journaled with running := [firstMerge] }

def published : Repo Nat :=
  { moveBranch publishing "main" (some 2) with running := [], belief := .nothing }

def pushedBack : Repo Nat := moveBranch published "main" (some 0)

def judged : Repo Nat := { pushedBack with belief := .absent firstMerge }

def merged : Repo Nat :=
  { moveBranch publishing "main" (some 2) with running := [], belief := .landed firstMerge }

def finished : Repo Nat :=
  { setRow { merged with
      pulls := Function.update merged.pulls 1 (some ⟨.merged 2, "main", "topic"⟩)
      merges := [1] } firstMerge .done with belief := .nothing }

theorem base_unmerged {s : Repo Nat} (h : s.branches "main" = some 0) :
    ¬ InHistory mergeParents s "main" 2 := by
  rintro ⟨tip, htip, hanc⟩
  rw [h] at htip
  cases htip
  have heq := root_ancestor hanc (by decide)
  cases heq

theorem insert_run : Step mergeParents openRepo (.insert firstMerge) journaled :=
  .insert (fun _ _ hr => by cases hr) rfl rfl

theorem publish_run : Step mergeParents journaled (.publish firstMerge) publishing :=
  .publish rfl rfl

theorem publish_clean : Clean mergeParents publishing (.commit firstMerge true) := by
  intro id i hrow _ _
  have hrow' : (if id = 1 then some (Row.mk firstMerge .pending) else none) =
      some (Row.mk i .pending) := by
    rw [← hrow]
    exact (rows_setRow openRepo firstMerge .pending id).symm
  split_ifs at hrow' with hid
  cases hrow'
  refine ⟨fun hin => absurd hin (base_unmerged rfl), fun new hnew _ => .inr ⟨?_, ?_⟩⟩
  · exact (Option.some.inj hnew).symm
  · intro hb
    cases hb

theorem finished_run : Run mergeParents (Clean mergeParents) finished := by
  have hstart : Run mergeParents (Clean mergeParents) openRepo := .start openRepo_initial
  have hunseen : Clean mergeParents openRepo (.insert firstMerge) :=
    ⟨by decide, base_unmerged rfl⟩
  have hcommit : Step mergeParents publishing (.commit firstMerge true) merged :=
    .commit (List.mem_singleton.mpr rfl) rfl rfl (fun _ => ⟨rfl, rfl⟩)
  have hfinal : Step mergeParents merged (.finalize firstMerge) finished := .finalize rfl rfl
  have hpublish : Clean mergeParents journaled (.publish firstMerge) := trivial
  have hdone : Clean mergeParents merged (.finalize firstMerge) := trivial
  exact (((hstart.step hunseen insert_run).step hpublish publish_run).step publish_clean
    hcommit).step hdone hfinal

theorem journal_truthful_finished :
    Truthful mergeParents finished ∧
      ∀ e s', Step mergeParents finished e s' → ¬ AbortsLanded finished s' :=
  journal_truthful finished_run

theorem not_landed : ¬ isLanded mergeParents pushedBack firstMerge := by
  rintro (hl | hin)
  · cases hl
  · exact base_unmerged rfl hin

/-- The base branch moves, the request loses sight of it, and a push moves the branch back. -/
theorem landed_merge_aborted :
    ∃ s e s', Run mergeParents (fun _ _ => True) s ∧ Step mergeParents s e s' ∧
      AbortsLanded s s' := by
  have hcommit : Step mergeParents publishing (.commit firstMerge false) published :=
    .commit (List.mem_singleton.mpr rfl) rfl rfl (fun h => by cases h)
  have hpush : Step mergeParents published (.push "main" (some 0)) pushedBack := .push
  have hask : Step mergeParents pushedBack (.ask firstMerge) judged := .askAbsent rfl not_landed
  have habort : Step mergeParents judged (.abort firstMerge) _ := .abort rfl
  have hrun : Run mergeParents (fun _ _ => True) openRepo := .start openRepo_initial
  have hjudged : Run mergeParents (fun _ _ => True) judged :=
    ((((hrun.step trivial insert_run).step trivial publish_run).step trivial hcommit).step trivial
      hpush).step trivial hask
  refine ⟨judged, .abort firstMerge, _, hjudged, habort, 1, firstMerge, rfl, rfl, ?_⟩
  exact .tail _ (.head _)

end SrcControl.Forge
