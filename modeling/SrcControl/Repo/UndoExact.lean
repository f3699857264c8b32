import SrcControl.Repo.OpLog

/-!
# What undo undoes

An undo that returned restored the before-values of the last record whatever the refs
held. It is an exact inverse when the state is in step with the log: the branches the
last record names hold its after-values, and `HEAD` does where the record moved it.
Every step that ends in a record of its own brings the state in step, and a step
without one keeps it so when it spares what the last record names.
-/

namespace SrcControl

namespace OpLog

/-! ## Errors before the first write -/

/-- Without a ref write nothing has changed. -/
structure Counted (st st' : Logged) : Prop where
  le : st.written ≤ st'.written
  same : st'.written = st.written → st' = st

def Counts {α : Type} (m : OpM α) : Prop :=
  ∀ st, (∀ a st', m st = .ok a st' → Counted st st') ∧ ∀ e st', m st = .error e st' → Counted st st'

namespace Counted

theorem refl (st : Logged) : Counted st st := ⟨le_rfl, fun _ => rfl⟩

theorem trans {st st' st'' : Logged} (h : Counted st st') (h' : Counted st' st'') :
    Counted st st'' := by
  refine ⟨h.le.trans h'.le, fun he => ?_⟩
  have hle := h'.le
  have hle' := h.le
  rw [h'.same (by omega), h.same (by omega)]

theorem setRefs (st : Logged) (refs : Refs) : Counted st (setRefs st refs) :=
  ⟨Nat.le_succ _, fun he => absurd he (Nat.succ_ne_self _)⟩

end Counted

namespace Counts

variable {α β : Type}

theorem bind {m : OpM α} {f : α → OpM β} (hm : Counts m) (hf : ∀ a, Counts (f a)) :
    Counts (m >>= f) := by
  intro st
  constructor
  · intro b st' h
    obtain ⟨a, st₁, h₁, h₂⟩ := Fallible.state_bind_ok h
    exact ((hm st).1 a st₁ h₁).trans ((hf a st₁).1 b st' h₂)
  · intro e st' h
    rcases Fallible.state_bind_error h with h | ⟨a, st₁, h₁, h₂⟩
    · exact (hm st).2 e st' h
    · exact ((hm st).1 a st₁ h₁).trans ((hf a st₁).2 e st' h₂)

theorem pure (a : α) : Counts (pure a : OpM α) := by
  intro st
  constructor <;> intro _ _ h <;> cases h
  exact .refl st

theorem throw (e : Error) : Counts (throw e : OpM α) := by
  intro st
  constructor <;> intro _ _ h <;> cases h
  exact .refl st

theorem get : Counts (get : OpM Logged) := by
  intro st
  constructor <;> intro _ _ h <;> cases h
  exact .refl st

theorem liftExcept (x : Except Error α) : Counts (liftExcept x) := by
  cases x with
  | error e => exact .throw e
  | ok a => exact .pure a

theorem editRefs (f : Refs → Except Error Refs) : Counts (editRefs f) := by
  intro st
  unfold OpLog.editRefs
  cases f st.repo.refs with
  | error e =>
    constructor <;> intro _ _ h <;> cases h
    exact .refl st
  | ok refs =>
    constructor <;> intro _ _ h <;> cases h
    exact .setRefs st refs

theorem writeBranchTip (branch : String) (id : ObjectId) : Counts (writeBranchTip branch id) :=
  editRefs _

theorem removeRef (branch : String) : Counts (removeRef branch) := by
  intro st
  unfold OpLog.removeRef
  split_ifs
  · constructor <;> intro _ _ h <;> cases h
    exact .setRefs st _
  · constructor <;> intro _ _ h <;> cases h
    exact .refl st

theorem restoreRefs (refs : List (String × Option ObjectId × Option ObjectId)) :
    Counts (restoreRefs refs) := by
  induction refs with
  | nil => exact .pure ()
  | cons r rest ih =>
    obtain ⟨name, before, after⟩ := r
    cases before with
    | some id => exact .bind (.writeBranchTip name id) (fun _ => ih)
    | none => exact .bind (.removeRef name) (fun _ => ih)

theorem moveHead (current target : String) : Counts (moveHead current target) := by
  unfold OpLog.moveHead
  split_ifs
  · exact .pure ()
  · exact .editRefs _

theorem layOut (wt : Worktree) (plan : Option (Option ObjectId × Snapshot)) :
    Counts (layOut wt plan) := by
  cases plan with
  | none => exact .pure []
  | some p => exact .bind .get (fun st => .liftExcept _)

theorem undoStart (wt : Worktree) : Counts (undoStart wt) := by
  refine .bind .get (fun st => ?_)
  cases st.log.getLast? with
  | none => exact .throw _
  | some rec =>
    simp only
    cases Transport.stoppedError st.repo.stopped with
    | some e => exact .throw e
    | none => exact .bind (.liftExcept _) (fun _ => .pure _)

end Counts

/-- A log append that fails changes nothing. -/
theorem record_error {now : Int} {desc hb ha : String}
    {refs : List (String × Option ObjectId × Option ObjectId)} {st st' : Logged} {e : Error}
    (h : record now desc hb ha refs st = .error e st') : st' = st := by
  cases hf : refs.find? (fun r => unparseable r.1) with
  | some r =>
    simp only [record, hf] at h
    cases h
    rfl
  | none =>
    simp only [record, hf] at h
    cases h

/-- An error of `undo` raised before a ref write left everything as it was. -/
theorem undo_error_counted {wt : Worktree} {st st' : Logged} {e : Error}
    (h : undo wt st = .error e st') : Counted st st' := by
  rcases Fallible.state_bind_error h with h | ⟨⟨rec, plan⟩, s₁, h₁, h⟩
  · exact (Counts.undoStart wt st).2 e st' h
  refine ((Counts.undoStart wt st).1 _ s₁ h₁).trans ?_
  rcases Fallible.state_bind_error h with h | ⟨_, s₂, h₂, h⟩
  · exact (Counts.restoreRefs _ s₁).2 e st' h
  refine ((Counts.restoreRefs _ s₁).1 _ s₂ h₂).trans ?_
  rcases Fallible.state_bind_error h with h | ⟨_, s₃, h₃, h⟩
  · exact (Counts.moveHead _ _ s₂).2 e st' h
  refine ((Counts.moveHead _ _ s₂).1 _ s₃ h₃).trans ?_
  rcases Fallible.state_bind_error h with h | ⟨skipped, s₄, h₄, h⟩
  · exact (Counts.layOut wt plan s₃).2 e st' h
  refine ((Counts.layOut wt plan s₃).1 _ s₄ h₄).trans ?_
  rcases Fallible.state_bind_error h with h | ⟨_, s₅, _, h⟩
  · rw [record_error h]
    exact .refl s₄
  · cases h

/-! ## What a returned undo did -/

/-- The branches of a record, each named once. -/
def Distinct (rec : OpRecord) : Prop := (rec.refs.map (·.1)).Nodup

theorem writeBranchTip_ok {branch : String} {id : ObjectId} {st st' : Logged}
    (h : writeBranchTip branch id st = .ok () st') :
    st'.log = st.log ∧ st'.repo.refs.head = st.repo.refs.head ∧
    st'.repo.refs.heads = st.repo.refs.heads.insert branch id := by
  unfold writeBranchTip editRefs at h
  split at h
  · next refs hw =>
    cases h
    rw [Refs.writeBranchTip_eq_ok hw]
    exact ⟨rfl, rfl, rfl⟩
  · cases h

theorem removeRef_ok {branch : String} {st st' : Logged} (h : removeRef branch st = .ok () st') :
    st'.log = st.log ∧ st'.repo.refs.head = st.repo.refs.head ∧
    ∀ b, st'.repo.refs.heads[b]? = if branch = b then none else st.repo.refs.heads[b]? := by
  unfold removeRef at h
  split_ifs at h with hc
  · cases h
    exact ⟨rfl, rfl, fun b => BTreeMap.getElem?_erase st.repo.refs.heads branch b⟩
  · cases h
    refine ⟨rfl, rfl, fun b => ?_⟩
    split_ifs with hb
    · subst hb
      rw [Std.ExtTreeMap.contains_eq_isSome_getElem?] at hc
      simpa using hc
    · rfl

/-- One entry of the record: its branch holds the before-value, the others are untouched. -/
theorem restoreRef_ok {name : String} {before : Option ObjectId} {st st' : Logged}
    (h : restoreRef name before st = .ok () st') :
    st'.log = st.log ∧ st'.repo.refs.head = st.repo.refs.head ∧
    ∀ b, st'.repo.refs.heads[b]? = if name = b then before else st.repo.refs.heads[b]? := by
  cases before with
  | some id =>
    obtain ⟨hlog, hhead, hheads⟩ := writeBranchTip_ok h
    exact ⟨hlog, hhead, fun b => by rw [hheads, BTreeMap.getElem?_insert]⟩
  | none => exact removeRef_ok h

theorem restoreRefs_ok {refs : List (String × Option ObjectId × Option ObjectId)}
    (hn : (refs.map (·.1)).Nodup) {st st' : Logged} (h : restoreRefs refs st = .ok () st') :
    st'.log = st.log ∧ st'.repo.refs.head = st.repo.refs.head ∧
    (∀ e ∈ refs, st'.repo.refs.heads[e.1]? = e.2.1) ∧
    ∀ b, b ∉ refs.map (·.1) → st'.repo.refs.heads[b]? = st.repo.refs.heads[b]? := by
  induction refs generalizing st with
  | nil =>
    cases h
    exact ⟨rfl, rfl, by simp, fun _ _ => rfl⟩
  | cons r rest ih =>
    obtain ⟨name, before, after⟩ := r
    obtain ⟨_, st₁, h₁, h⟩ := Fallible.state_bind_ok h
    obtain ⟨hfresh, hn⟩ := List.nodup_cons.mp hn
    obtain ⟨hlog₁, hhead₁, hheads₁⟩ := restoreRef_ok h₁
    obtain ⟨hlog, hhead, hin, hout⟩ := ih hn h
    refine ⟨hlog.trans hlog₁, hhead.trans hhead₁, fun e he => ?_, fun b hb => ?_⟩
    · rcases List.mem_cons.mp he with rfl | he
      · rw [hout _ hfresh, hheads₁, if_pos rfl]
      · exact hin e he
    · rw [List.map_cons, List.mem_cons, not_or] at hb
      rw [hout b hb.2, hheads₁, if_neg (Ne.symm hb.1)]

theorem writeHead_ok {branch : String} {st st' : Logged} (h : writeHead branch st = .ok () st') :
    st'.log = st.log ∧ st'.repo.refs.heads = st.repo.refs.heads ∧ st'.repo.refs.head = branch := by
  unfold writeHead editRefs at h
  split at h
  · next refs hw =>
    cases h
    obtain ⟨_, _, hw⟩ := Fallible.bind_ok hw
    cases hw
    exact ⟨rfl, rfl, rfl⟩
  · cases h

theorem record_ok {now : Int} {desc hb ha : String}
    {refs : List (String × Option ObjectId × Option ObjectId)} {st st' : Logged}
    (h : record now desc hb ha refs st = .ok () st') :
    st'.repo = st.repo ∧ ∃ rec, st'.log = st.log ++ [rec] ∧ rec.headBefore = hb ∧
      rec.headAfter = ha ∧ rec.refs = refs := by
  cases hf : refs.find? (fun r => unparseable r.1) with
  | some r =>
    simp only [record, hf] at h
    cases h
  | none =>
    simp only [record, hf] at h
    cases h
    exact ⟨rfl, _, rfl, rfl, rfl, rfl⟩

/-- The state after the undo of `rec`, with the inverse record on the log. -/
structure Undone (rec : OpRecord) (st st' : Logged) : Prop where
  named : ∀ e ∈ rec.refs, st'.repo.refs.heads[e.1]? = e.2.1
  unnamed : ∀ b, b ∉ rec.refs.map (·.1) → st'.repo.refs.heads[b]? = st.repo.refs.heads[b]?
  head : st'.repo.refs.head =
    if rec.headAfter = rec.headBefore then st.repo.refs.head else rec.headBefore
  logged : ∃ inv, st'.log = st.log ++ [inv] ∧ inv.headBefore = rec.headAfter ∧
    inv.headAfter = rec.headBefore ∧ inv.refs = inverse rec.refs

theorem undoStart_ok {wt : Worktree} {st st' : Logged} {rec : OpRecord}
    {plan : Option (Option ObjectId × Snapshot)} (h : undoStart wt st = .ok (rec, plan) st') :
    st' = st ∧ st.log.getLast? = some rec := by
  obtain ⟨s, st₁, h₁, h⟩ := Fallible.state_bind_ok h
  cases h₁
  cases hlast : st.log.getLast? with
  | none =>
    simp only [hlast] at h
    cases h
  | some rec' =>
    cases hstop : Transport.stoppedError st.repo.stopped with
    | some e =>
      simp only [hlast, hstop] at h
      cases h
    | none =>
      simp only [hlast, hstop] at h
      obtain ⟨p, st₂, h₂, h⟩ := Fallible.state_bind_ok h
      cases h
      cases hplan : undoPlan wt st rec with
      | error e =>
        rw [hplan] at h₂
        cases h₂
      | ok p' =>
        rw [hplan] at h₂
        cases h₂
        exact ⟨rfl, rfl⟩

theorem layOut_ok {wt : Worktree} {plan : Option (Option ObjectId × Snapshot)} {st st' : Logged}
    {skipped : List String} (h : layOut wt plan st = .ok skipped st') : st' = st := by
  cases plan with
  | none =>
    cases h
    rfl
  | some p =>
    obtain ⟨s, st₁, h₁, h⟩ := Fallible.state_bind_ok h
    cases h₁
    cases hm : wt.materialize st p.1 p.2 with
    | error e =>
      rw [hm] at h
      cases h
    | ok a =>
      rw [hm] at h
      cases h
      rfl

theorem moveHead_ok {current target : String} {st st' : Logged}
    (h : moveHead current target st = .ok () st') :
    st'.log = st.log ∧ st'.repo.refs.heads = st.repo.refs.heads ∧ st'.repo.refs.head =
      if current = target then st.repo.refs.head else target := by
  unfold moveHead at h
  split_ifs at h ⊢
  · cases h
    exact ⟨rfl, rfl, rfl⟩
  · exact writeHead_ok h

theorem undo_ok {wt : Worktree} {st st' : Logged} {out : UndoOutcome}
    (h : undo wt st = .ok out st') : ∃ rec, st.log.getLast? = some rec ∧
      (Distinct rec → Undone rec st st') := by
  obtain ⟨⟨rec, plan⟩, s₁, h₁, hrun⟩ := Fallible.state_bind_ok h
  obtain ⟨hs, hlast⟩ := undoStart_ok h₁
  rw [hs] at hrun
  obtain ⟨_, s₂, h₂, hrun⟩ := Fallible.state_bind_ok hrun
  obtain ⟨_, s₃, h₃, hrun⟩ := Fallible.state_bind_ok hrun
  obtain ⟨skipped, s₄, h₄, hrun⟩ := Fallible.state_bind_ok hrun
  rw [layOut_ok h₄] at hrun
  obtain ⟨_, s₅, h₅, hrun⟩ := Fallible.state_bind_ok hrun
  cases hrun
  refine ⟨rec, hlast, fun hn => ?_⟩
  obtain ⟨hlog₂, hhead₂, hin, hout⟩ := restoreRefs_ok hn h₂
  obtain ⟨hlog₃, hheads₃, hhead₃⟩ := moveHead_ok h₃
  obtain ⟨hrepo, inv, hlog₅, hinv⟩ := record_ok h₅
  rw [hlog₃, hlog₂] at hlog₅
  rw [hhead₂] at hhead₃
  constructor
  · intro e he
    rw [hrepo, hheads₃]
    exact hin e he
  · intro b hb
    rw [hrepo, hheads₃]
    exact hout b hb
  · rw [hrepo]
    exact hhead₃
  · exact ⟨inv, hlog₅, hinv⟩

/-! ## In step with the log -/

/-- The last record names each branch once. -/
def LastDistinct (log : List OpRecord) : Prop := ∀ rec, log.getLast? = some rec → Distinct rec

/-- The refs hold what the last record says it left. -/
def InStep (log : List OpRecord) (refs : Refs) : Prop :=
  ∀ rec, log.getLast? = some rec → (∀ e ∈ rec.refs, refs.heads[e.1]? = e.2.2) ∧
    (rec.headBefore ≠ rec.headAfter → refs.head = rec.headAfter)

/-- Every branch whose tip changed held the after-value of the record undone. -/
def OwnOnly (st st' : Logged) : Prop :=
  ∃ rec, st.log.getLast? = some rec ∧
    ∀ b, st'.repo.refs.heads[b]? ≠ st.repo.refs.heads[b]? →
      ∃ before, (b, before, st.repo.refs.heads[b]?) ∈ rec.refs

/-- Every branch tip and `HEAD` are what they were. -/
def SameTips (st st' : Logged) : Prop :=
  (∀ b : String, st'.repo.refs.heads[b]? = st.repo.refs.heads[b]?) ∧
  st'.repo.refs.head = st.repo.refs.head

theorem inverse_names (refs : List (String × Option ObjectId × Option ObjectId)) :
    (inverse refs).map (·.1) = refs.map (·.1) := by
  simp [inverse, Function.comp_def]

theorem inverse_distinct {rec inv : OpRecord} (h : Distinct rec)
    (hinv : inv.refs = inverse rec.refs) : Distinct inv := by
  rw [Distinct, hinv, inverse_names]
  exact h

theorem mem_inverse {refs : List (String × Option ObjectId × Option ObjectId)}
    {e : String × Option ObjectId × Option ObjectId} :
    e ∈ inverse refs ↔ (e.1, e.2.2, e.2.1) ∈ refs := by
  simp only [inverse, List.mem_map]
  constructor
  · rintro ⟨⟨n, b, a⟩, hm, rfl⟩
    exact hm
  · intro h
    exact ⟨_, h, rfl⟩

/-- The refs after an undo are in step with its inverse record. -/
theorem Undone.inStep {rec : OpRecord} {st st' : Logged} (h : Undone rec st st') :
    InStep st'.log st'.repo.refs := by
  obtain ⟨inv, hlog, hb, ha, hrefs⟩ := h.logged
  intro rec' hlast
  rw [hlog, List.getLast?_concat] at hlast
  cases hlast
  refine ⟨fun e he => ?_, fun hne => ?_⟩
  · rw [hrefs] at he
    exact h.named _ (mem_inverse.mp he)
  · rw [h.head, if_neg (by rw [hb, ha] at hne; exact hne), ha]

/-- Two undos in a row put every tip back exactly when the state was in step. -/
theorem sameTips_iff {rec inv : OpRecord} {st st₁ st₂ : Logged}
    (hlast : st.log.getLast? = some rec) (h₁ : Undone rec st st₁) (hb : inv.headBefore = rec.headAfter)
    (ha : inv.headAfter = rec.headBefore) (hrefs : inv.refs = inverse rec.refs)
    (h₂ : Undone inv st₁ st₂) : SameTips st st₂ ↔ InStep st.log st.repo.refs := by
  have hnamed : ∀ e ∈ rec.refs, st₂.repo.refs.heads[e.1]? = e.2.2 := by
    intro e he
    exact h₂.named (e.1, e.2.2, e.2.1) (by rw [hrefs]; exact mem_inverse.mpr he)
  have hunnamed : ∀ b, b ∉ rec.refs.map (·.1) →
      st₂.repo.refs.heads[b]? = st.repo.refs.heads[b]? := by
    intro b hb'
    rw [h₂.unnamed b (by rw [hrefs, inverse_names]; exact hb'), h₁.unnamed b hb']
  have hhead : st₂.repo.refs.head =
      if rec.headBefore = rec.headAfter then st.repo.refs.head else rec.headAfter := by
    rw [h₂.head, hb, ha, h₁.head]
    by_cases he : rec.headBefore = rec.headAfter
    · rw [if_pos he, if_pos he.symm, if_pos he]
    · rw [if_neg he, if_neg he]
  constructor
  · rintro ⟨htips, hsame⟩ rec' hlast'
    rw [hlast] at hlast'
    cases hlast'
    refine ⟨fun e he => ?_, fun hne => ?_⟩
    · rw [← htips, hnamed e he]
    · rw [← hsame, hhead, if_neg hne]
  · intro hstep
    obtain ⟨hafter, hmoved⟩ := hstep rec hlast
    refine ⟨fun b => ?_, ?_⟩
    · by_cases hmem : b ∈ rec.refs.map (·.1)
      · obtain ⟨e, he, rfl⟩ := List.mem_map.mp hmem
        rw [hnamed e he, hafter e he]
      · exact hunnamed b hmem
    · rw [hhead]
      split_ifs with he
      · rfl
      · exact (hmoved he).symm

theorem ownOnly_of_inStep {rec : OpRecord} {st st₁ : Logged} (hlast : st.log.getLast? = some rec)
    (h₁ : Undone rec st st₁) (hstep : InStep st.log st.repo.refs) : OwnOnly st st₁ := by
  refine ⟨rec, hlast, fun b hb => ?_⟩
  by_cases hmem : b ∈ rec.refs.map (·.1)
  · obtain ⟨⟨n, before, after⟩, he, rfl⟩ := List.mem_map.mp hmem
    have hafter := (hstep rec hlast).1 _ he
    exact ⟨before, by rw [hafter]; exact he⟩
  · exact absurd (h₁.unnamed b hmem) hb

/-! ## Runs -/

/-- One step of a repository's life. `received` is a push taken in by `update_ref`; `cut`
is any operation that moved refs and ended before its record; `other` is everything that
moves no ref. -/
inductive Step : Logged → Logged → Prop
  | operate {st st' : Logged} {now : Int} {desc newHead : String}
      {moves : List (String × ObjectId)} (hn : (moves.map (·.1)).Nodup)
      (h : operate now desc moves newHead st = .ok () st') : Step st st'
  | undone {st st' : Logged} {wt : Worktree} {out : UndoOutcome} (h : undo wt st = .ok out st') :
      Step st st'
  | received {st : Logged} {repo : Repository} {branch : String} {id : ObjectId}
      {old : Option ObjectId} (h : Transport.updateRef st.repo branch id old = .ok repo) :
      Step st { st with repo := repo }
  | cut {st : Logged} {written : Nat} (refs : Refs) :
      Step st { st with repo := { st.repo with refs := refs }, written := written }
  | trimmed {st : Logged} (cutoff : Int) :
      Step st { st with log := trimOlderThan cutoff st.log }
  | other {st : Logged} {repo : Repository} (h : repo.refs = st.repo.refs) :
      Step st { st with repo := repo }

/-- The step ended in a record of its own, or spared what the last record names. -/
def Accounted (st st' : Logged) : Prop :=
  (∃ rec, st'.log = st.log ++ [rec]) ∨
  ∀ rec, st.log.getLast? = some rec →
    (∀ e ∈ rec.refs, st'.repo.refs.heads[e.1]? = st.repo.refs.heads[e.1]?) ∧
    (rec.headBefore ≠ rec.headAfter → st'.repo.refs.head = st.repo.refs.head)

/-- A run whose steps are all accounted for. -/
inductive Run : Logged → Logged → Prop
  | refl (st : Logged) : Run st st
  | tail {st st' st'' : Logged} (h : Run st st') (hs : Step st' st'') (ha : Accounted st' st'') :
      Run st st''

theorem moveRefs_kept {moves : List (String × ObjectId)} {st st' : Logged}
    (h : moveRefs moves st = .ok () st') :
    st'.log = st.log ∧
    ∀ b, b ∉ moves.map (·.1) → st'.repo.refs.heads[b]? = st.repo.refs.heads[b]? := by
  induction moves generalizing st with
  | nil =>
    cases h
    exact ⟨rfl, fun _ _ => rfl⟩
  | cons m rest ih =>
    obtain ⟨_, s₁, h₁, h⟩ := Fallible.state_bind_ok h
    obtain ⟨hlog, _, hheads⟩ := writeBranchTip_ok h₁
    obtain ⟨hlog', hrest⟩ := ih h
    refine ⟨hlog'.trans hlog, fun b hb => ?_⟩
    rw [List.map_cons, List.mem_cons, not_or] at hb
    rw [hrest b hb.2, hheads, BTreeMap.getElem?_insert, if_neg (Ne.symm hb.1)]

theorem moveRefs_moved {moves : List (String × ObjectId)} (hn : (moves.map (·.1)).Nodup)
    {st st' : Logged} (h : moveRefs moves st = .ok () st') :
    ∀ m ∈ moves, st'.repo.refs.heads[m.1]? = some m.2 := by
  induction moves generalizing st with
  | nil => simp
  | cons m rest ih =>
    obtain ⟨_, s₁, h₁, h⟩ := Fallible.state_bind_ok h
    obtain ⟨hfresh, hn⟩ := List.nodup_cons.mp hn
    obtain ⟨_, _, hheads⟩ := writeBranchTip_ok h₁
    intro m' hm
    rcases List.mem_cons.mp hm with hm | hm
    · rw [hm, (moveRefs_kept h).2 _ hfresh, hheads, BTreeMap.getElem?_insert, if_pos rfl]
    · exact ih hn h m' hm

/-- A logged operation leaves the state in step with its own record. -/
theorem operate_inStep {now : Int} {desc newHead : String} {moves : List (String × ObjectId)}
    (hn : (moves.map (·.1)).Nodup) {st st' : Logged}
    (h : operate now desc moves newHead st = .ok () st') :
    InStep st'.log st'.repo.refs ∧ LastDistinct st'.log := by
  obtain ⟨s, s₀, h₀, hrun⟩ := Fallible.state_bind_ok h
  cases h₀
  obtain ⟨_, s₁, h₁, hrun⟩ := Fallible.state_bind_ok hrun
  have hmoved := moveRefs_moved hn h₁
  obtain ⟨_, s₂, h₂, h₃⟩ := Fallible.state_bind_ok hrun
  have hhead : s₂.repo.refs.heads = s₁.repo.refs.heads ∧
      (st.repo.refs.head ≠ newHead → s₂.repo.refs.head = newHead) := by
    obtain ⟨_, hheads, hnew⟩ := moveHead_ok h₂
    exact ⟨hheads, fun hne => by rw [hnew, if_neg hne]⟩
  obtain ⟨hrepo, rec, hlog, hb, ha, hrefs⟩ := record_ok h₃
  have hlast : st'.log.getLast? = some rec := by rw [hlog, List.getLast?_concat]
  constructor
  · intro rec' hlast'
    rw [hlast] at hlast'
    cases hlast'
    rw [hrepo, hb, ha, hrefs]
    refine ⟨fun e he => ?_, hhead.2⟩
    obtain ⟨m, hm, rfl⟩ := List.mem_map.mp he
    rw [hhead.1]
    exact hmoved m hm
  · intro rec' hlast'
    rw [hlast] at hlast'
    cases hlast'
    rw [Distinct, hrefs, List.map_map]
    exact hn

theorem operate_logs {now : Int} {desc newHead : String} {moves : List (String × ObjectId)}
    {st st' : Logged} (h : operate now desc moves newHead st = .ok () st') :
    ∃ rec, st'.log = st.log ++ [rec] := by
  obtain ⟨s, s₀, h₀, hrun⟩ := Fallible.state_bind_ok h
  cases h₀
  obtain ⟨_, s₁, h₁, hrun⟩ := Fallible.state_bind_ok hrun
  obtain ⟨_, s₂, h₂, h₃⟩ := Fallible.state_bind_ok hrun
  obtain ⟨_, rec, hlog, _⟩ := record_ok h₃
  rw [(moveHead_ok h₂).1, (moveRefs_kept h₁).1] at hlog
  exact ⟨rec, hlog⟩

theorem trimOlderThan_last (cutoff : Int) (log : List OpRecord) :
    (trimOlderThan cutoff log).getLast? = log.getLast? := by
  unfold trimOlderThan
  cases hlast : log.getLast? with
  | none => rfl
  | some newest =>
    obtain ⟨front, rfl⟩ := List.getLast?_eq_some_iff.mp hlast
    simp [List.filter_append]

/-- Every accounted step keeps the state in step with the log. -/
theorem step_inStep {st st' : Logged} (h : Step st st') (ha : Accounted st st')
    (hst : InStep st.log st.repo.refs ∧ LastDistinct st.log) :
    InStep st'.log st'.repo.refs ∧ LastDistinct st'.log := by
  have hspared : st'.log.getLast? = st.log.getLast? → (∀ rec, st.log.getLast? = some rec →
      (∀ e ∈ rec.refs, st'.repo.refs.heads[e.1]? = st.repo.refs.heads[e.1]?) ∧
      (rec.headBefore ≠ rec.headAfter → st'.repo.refs.head = st.repo.refs.head)) →
      InStep st'.log st'.repo.refs ∧ LastDistinct st'.log := by
    intro hlog hkeep
    refine ⟨fun rec hlast => ?_, fun rec hlast => hst.2 rec (by rw [← hlog]; exact hlast)⟩
    rw [hlog] at hlast
    obtain ⟨hheads, hhead⟩ := hst.1 rec hlast
    exact ⟨fun e he => by rw [(hkeep rec hlast).1 e he, hheads e he],
      fun hne => by rw [(hkeep rec hlast).2 hne, hhead hne]⟩
  have hnone : st'.log = st.log → InStep st'.log st'.repo.refs ∧ LastDistinct st'.log := by
    intro hlog
    rcases ha with ⟨rec, hrec⟩ | hkeep
    · rw [hlog] at hrec
      simp at hrec
    · exact hspared (by rw [hlog]) hkeep
  cases h with
  | operate hn h => exact operate_inStep hn h
  | undone h =>
    obtain ⟨rec, hlast, hun⟩ := undo_ok h
    have hundone := hun (hst.2 rec hlast)
    refine ⟨hundone.inStep, fun rec' hlast' => ?_⟩
    obtain ⟨inv, hlog, _, _, hrefs⟩ := hundone.logged
    rw [hlog, List.getLast?_concat] at hlast'
    cases hlast'
    exact inverse_distinct (hst.2 rec hlast) hrefs
  | received h => exact hnone rfl
  | cut refs => exact hnone rfl
  | trimmed cutoff => exact hspared (trimOlderThan_last cutoff st.log) (fun _ _ => ⟨fun _ _ => rfl, fun _ => rfl⟩)
  | other h => exact hspared rfl (fun _ _ => ⟨fun _ _ => by rw [h], fun _ => by rw [h]⟩)

theorem run_inStep {st st' : Logged} (h : Run st st') (hst : st.log = []) :
    InStep st'.log st'.repo.refs ∧ LastDistinct st'.log := by
  induction h with
  | refl => constructor <;> intro rec hlast <;> rw [hst] at hlast <;> cases hlast
  | tail _ hs ha ih => exact step_inStep hs ha ih

/-- What is asked of an undo in `st`: an error before the first write changed nothing, a
success moved only branches that held the after-value of its record, and a second success
right after put every tip and `HEAD` back. -/
structure ExactUndo (st : Logged) : Prop where
  refused : ∀ wt e st', undo wt st = .error e st' → st'.written = st.written → st' = st
  own : ∀ wt out st₁, undo wt st = .ok out st₁ → OwnOnly st st₁
  toggles : ∀ wt out st₁ wt' out' st₂, undo wt st = .ok out st₁ → undo wt' st₁ = .ok out' st₂ →
    SameTips st st₂

/-- In any state, an undo that returned and was undone in turn was exact just when the state
was in step with the log. -/
theorem exact_iff_inStep {st : Logged} (hd : LastDistinct st.log) {wt wt' : Worktree}
    {out out' : UndoOutcome} {st₁ st₂ : Logged} (h₁ : undo wt st = .ok out st₁)
    (h₂ : undo wt' st₁ = .ok out' st₂) :
    OwnOnly st st₁ ∧ SameTips st st₂ ↔ InStep st.log st.repo.refs := by
  obtain ⟨rec, hlast, hun⟩ := undo_ok h₁
  have hundone := hun (hd rec hlast)
  obtain ⟨inv, hlog, hb, ha, hrefs⟩ := hundone.logged
  obtain ⟨rec', hlast', hun'⟩ := undo_ok h₂
  rw [hlog, List.getLast?_concat] at hlast'
  cases hlast'
  have hsame := sameTips_iff hlast hundone hb ha hrefs
    (hun' (inverse_distinct (hd rec hlast) hrefs))
  exact ⟨fun h => hsame.mp h.2, fun h => ⟨ownOnly_of_inStep hlast hundone h, hsame.mpr h⟩⟩

/-- From an empty log, along every run whose steps each end in their own record or spare
what the last record names, every undo is exact; and in any state at all, an undo that
returned and was undone in turn was exact just when the state was in step with the log. -/
theorem undo_exact (st₀ st : Logged) :
    (st₀.log = [] → Run st₀ st → ExactUndo st) ∧
    (LastDistinct st.log → ∀ wt out st₁ wt' out' st₂, undo wt st = .ok out st₁ →
      undo wt' st₁ = .ok out' st₂ →
      (OwnOnly st st₁ ∧ SameTips st st₂ ↔ InStep st.log st.repo.refs)) := by
  refine ⟨fun hlog hrun => ?_, fun hd wt out st₁ wt' out' st₂ h₁ h₂ => exact_iff_inStep hd h₁ h₂⟩
  obtain ⟨hstep, hd⟩ := run_inStep hrun hlog
  refine ⟨fun wt e st' h hw => (undo_error_counted h).same hw, fun wt out st₁ h => ?_,
    fun wt out st₁ wt' out' st₂ h₁ h₂ => ((exact_iff_inStep hd h₁ h₂).mpr hstep).2⟩
  obtain ⟨rec, hlast, hun⟩ := undo_ok h
  exact ownOnly_of_inStep hlast (hun (hd rec hlast)) hstep

/-! ## A push received between the record and the undo -/

def testWorktree : Worktree :=
  ⟨0, fun _ => .ok false, fun _ _ _ => .ok (), fun _ _ _ => .ok []⟩

def testCommit (parents : List UInt8) : Object :=
  .snapshot ⟨testId 1, parents.map testId, "a", 0, "m", ∅, default⟩

/-- A fresh repository whose store will serve three commits in a row. -/
def testStart : Logged :=
  ⟨⟨testStore [(1, .tree ⟨[]⟩), (2, testCommit []), (3, testCommit [2]), (4, testCommit [3])],
    ⟨∅, ∅, "main"⟩, ⟨false, false, false⟩, ⟨[], [], []⟩, false⟩, [], 0⟩

theorem undo_exact_commits : ∃ st, Run testStart st ∧ st.log.length = 2 ∧ ExactUndo st := by
  obtain ⟨s₁, h₁⟩ : ∃ s, operate 0 "commit: one" [("main", testId 2)] "main" testStart = .ok () s :=
    ⟨_, rfl⟩
  obtain ⟨s₂, h₂, hlen⟩ : ∃ s, operate 0 "commit: two" [("main", testId 3)] "main" s₁ = .ok () s ∧
      s.log.length = 2 := by
    cases h₁
    exact ⟨_, rfl, rfl⟩
  have hlogged : ∀ {desc moves s s'}, operate 0 desc moves "main" s = .ok () s' → Accounted s s' := by
    intro desc moves s s' h
    exact .inl (operate_logs h)
  have hrun : Run testStart s₂ := .tail (.tail (.refl _) (.operate (by decide) h₁) (hlogged h₁))
    (.operate (by decide) h₂) (hlogged h₂)
  exact ⟨s₂, hrun, hlen, (undo_exact testStart s₂).1 rfl hrun⟩

def testRecord (seq : Nat) (desc : String) (before after : Option ObjectId) : OpRecord :=
  ⟨seq, 0, desc, "main", "main", [("main", before, after)]⟩

/-- `main` after the tips `tips`, with the log `log`. -/
def testAfter (tips : List UInt8) (log : List OpRecord) (written : Nat) : Logged :=
  ⟨{ testStart.repo with refs := { testStart.repo.refs with
      heads := tips.foldl (fun m n => m.insert "main" (testId n)) ∅ } }, log, written⟩

def testLog : List OpRecord :=
  [testRecord 1 "commit: one" none (some (testId 2)),
    testRecord 2 "commit: two" (some (testId 2)) (some (testId 3))]

/-- Two commits, then a push from elsewhere on top of them, then an undo: the branch held
the pushed commit, which the record undone knows nothing of, and it is gone from it. -/
theorem undo_discards_received_push :
    Step testStart (testAfter [2] [testRecord 1 "commit: one" none (some (testId 2))] 1) ∧
    Step (testAfter [2] [testRecord 1 "commit: one" none (some (testId 2))] 1)
      (testAfter [2, 3] testLog 2) ∧
    Step (testAfter [2, 3] testLog 2) (testAfter [2, 3, 4] testLog 2) ∧
    ∃ out st, undo testWorktree (testAfter [2, 3, 4] testLog 2) = .ok out st ∧
      st.repo.refs.heads["main"]? = some (testId 2) ∧
      ¬ OwnOnly (testAfter [2, 3, 4] testLog 2) st := by
  have hone : operate 0 "commit: one" [("main", testId 2)] "main" testStart =
      .ok () (testAfter [2] [testRecord 1 "commit: one" none (some (testId 2))] 1) := rfl
  have htwo : operate 0 "commit: two" [("main", testId 3)] "main"
      (testAfter [2] [testRecord 1 "commit: one" none (some (testId 2))] 1) =
      .ok () (testAfter [2, 3] testLog 2) := rfl
  have hpush : Transport.updateRef (testAfter [2, 3] testLog 2).repo "main" (testId 4)
      (some (testId 3)) = .ok (testAfter [2, 3, 4] testLog 2).repo := rfl
  have hundo : ∃ out st, undo testWorktree (testAfter [2, 3, 4] testLog 2) = .ok out st ∧
      st.repo.refs.heads["main"]? = some (testId 2) := ⟨_, _, rfl, rfl⟩
  obtain ⟨out, st, hrun, htip⟩ := hundo
  refine ⟨.operate (by decide) hone, .operate (by decide) htwo, .received hpush, out, st, hrun, htip,
    ?_⟩
  rintro ⟨rec, hlast, hown⟩
  have hrec : (testAfter [2, 3, 4] testLog 2).log.getLast? =
      some (testRecord 2 "commit: two" (some (testId 2)) (some (testId 3))) := rfl
  have hbefore : (testAfter [2, 3, 4] testLog 2).repo.refs.heads["main"]? = some (testId 4) := rfl
  rw [hrec] at hlast
  cases hlast
  obtain ⟨before, hmem⟩ := hown "main" (by rw [htip, hbefore]; decide)
  rw [hbefore] at hmem
  simp [testRecord, testId] at hmem

end OpLog

end SrcControl
