import SrcControl.Forge.Retention

/-!
# No commit of a pull request is pruned

Whatever was written before, and wherever it stopped: when maintenance prunes, a ref reaches every
commit that a row of a pull request names.
-/

namespace SrcControl.Retention

open Forge (Intent Ancestor)

variable {C : Type} {parents : C → List C} {s s' s'' : Repo C} {n : Nat}
  {p p' : Pull C}

/-! ## The invariant -/

/-- What a row says in each of its states. -/
structure RowOk (parents : C → List C) (p : Pull C) : Prop where
  opened : p.state = .opened → p.finalHead = none
  ended : p.state ≠ .opened → p.finalHead = some p.headSha
  unmerged : p.state ≠ .merged → p.mergeCommit = none
  merged : p.state = .merged → ∃ m, p.mergeCommit = some m ∧ p.baseSha ∈ parents m

/-- What rows, branches, retention refs and the journal name exists. -/
structure Inv (parents : C → List C) (s : Repo C) : Prop where
  numbers : ∀ n p, s.pulls n = some p → n < s.numbers
  rows : ∀ n p, s.pulls n = some p → RowOk parents p
  names : ∀ n p, s.pulls n = some p → ∀ c, Names p c → s.objects c = true
  branches : ∀ b c, s.branches b = some c → s.objects c = true
  heads : ∀ n c, s.heads n = some c → s.objects c = true
  pending : ∀ id i, s.pending id = some i → parents i.mergeOid = [i.baseOid, i.headOid] ∧
    s.objects i.baseOid = true ∧ s.objects i.headOid = true ∧ s.objects i.mergeOid = true

namespace Inv

theorem empty : Inv parents (.empty : Repo C) :=
  ⟨fun _ _ h => (by cases h), fun _ _ h => (by cases h), fun _ _ h => (by cases h),
    fun _ _ h => (by cases h), fun _ _ h => (by cases h), fun _ _ h => (by cases h)⟩

theorem setHead (h : Inv parents s) {oid : Option C} (hoid : ∀ c, oid = some c → s.objects c = true)
    (n : Nat) : Inv parents { s with heads := Function.update s.heads n oid } := by
  refine ⟨h.numbers, h.rows, h.names, h.branches, fun m c hm => ?_, h.pending⟩
  change Function.update s.heads n oid m = some c at hm
  rw [Function.update_apply] at hm
  split_ifs at hm with heq
  · exact hoid c hm
  · exact h.heads m c hm

theorem retain (h : Inv parents s) {oid : C} (hoid : s.objects oid = true) (n : Nat) :
    Inv parents (s.retain n oid) :=
  h.setHead (fun _ hc => Option.some.inj hc ▸ hoid) n

theorem save (h : Inv parents s) (hn : n < s.numbers) (hp : RowOk parents p)
    (hnames : ∀ c, Names p c → s.objects c = true) : Inv parents (s.save n p) := by
  have hrow : ∀ {m q}, (s.save n p).pulls m = some q → m = n ∧ q = p ∨ s.pulls m = some q := by
    intro m q hq
    change Function.update s.pulls n (some p) m = some q at hq
    rw [Function.update_apply] at hq
    split_ifs at hq with heq
    · exact .inl ⟨heq, (Option.some.inj hq).symm⟩
    · exact .inr hq
  refine ⟨fun m q hq => ?_, fun m q hq => ?_, fun m q hq => ?_, h.branches, h.heads, h.pending⟩
  · rcases hrow hq with ⟨rfl, -⟩ | hq
    · exact hn
    · exact h.numbers m q hq
  · rcases hrow hq with ⟨-, rfl⟩ | hq
    · exact hp
    · exact h.rows m q hq
  · rcases hrow hq with ⟨-, rfl⟩ | hq
    · exact hnames
    · exact h.names m q hq

theorem setBranch (h : Inv parents s) {tip : Option C}
    (htip : ∀ c, tip = some c → s.objects c = true) (b : String) :
    Inv parents (s.setBranch b tip) := by
  refine ⟨h.numbers, h.rows, h.names, fun b' c hb => ?_, h.heads, h.pending⟩
  change Function.update s.branches b tip b' = some c at hb
  rw [Function.update_apply] at hb
  split_ifs at hb
  · exact htip c hb
  · exact h.branches b' c hb

theorem setPending (h : Inv parents s) {id : Nat} {i : Option (Intent C)}
    (hi : ∀ j, i = some j → parents j.mergeOid = [j.baseOid, j.headOid] ∧
      s.objects j.baseOid = true ∧ s.objects j.headOid = true ∧ s.objects j.mergeOid = true) :
    Inv parents { s with pending := Function.update s.pending id i } := by
  refine ⟨h.numbers, h.rows, h.names, h.branches, h.heads, fun id' j hj => ?_⟩
  change Function.update s.pending id i id' = some j at hj
  rw [Function.update_apply] at hj
  split_ifs at hj
  · exact hi j hj
  · exact h.pending id' j hj

/-- Only refs that the invariant does not speak of change. -/
theorem otherRefs (h : Inv parents s) (bases merges landed : Nat → Option C) :
    Inv parents { s with bases := bases, merges := merges, landed := landed } :=
  ⟨h.numbers, h.rows, h.names, h.branches, h.heads, h.pending⟩

theorem closed (h : Inv parents s) (hp : s.pulls n = some p) (hopen : p.state = .opened) {head : C}
    (hhead : s.objects head = true) : Inv parents
      (s.save n { p with headSha := head, finalHead := some head, state := .closed }) := by
  refine h.save (h.numbers n p hp) ⟨fun hst => (by cases hst), fun _ => rfl, fun _ => ?_,
    fun hst => (by cases hst)⟩ (fun c hc => ?_)
  · exact (h.rows n p hp).unmerged (by rw [hopen]; decide)
  · cases hc with
    | head => exact hhead
    | final hf =>
      cases hf
      exact hhead
    | merge hm => exact h.names n p hp c (.merge hm)
    | base => exact h.names n p hp _ .base

theorem moved (h : Inv parents s) (hp : s.pulls n = some p) (hopen : p.state = .opened) {tip : C}
    (htip : s.objects tip = true) :
    Inv parents (s.save n { p with headSha := tip, headGone := false }) := by
  have hrow := h.rows n p hp
  refine h.save (h.numbers n p hp) ⟨hrow.opened, fun hst => absurd hopen hst, hrow.unmerged,
    hrow.merged⟩ (fun c hc => ?_)
  cases hc with
  | head => exact htip
  | final hf => exact h.names n p hp c (.final hf)
  | merge hm => exact h.names n p hp c (.merge hm)
  | base => exact h.names n p hp _ .base

theorem repairedHead (h : Inv parents s) (n : Nat) {c : C}
    (hc : repairedHead (s.pulls n) (s.heads n) = some c) : s.objects c = true := by
  cases hp : s.pulls n with
  | none =>
    rw [hp] at hc
    cases hc
  | some p =>
    rw [hp] at hc
    simp only [Retention.repairedHead] at hc
    split_ifs at hc
    · cases hc
      exact h.names n p hp _ .head
    · exact h.heads n c hc
    · cases hf : p.finalHead with
      | none =>
        rw [hf] at hc
        exact h.heads n c hc
      | some f =>
        rw [hf] at hc
        cases hc
        exact h.names n p hp _ (.final hf)

theorem inserted (h : Inv parents s) {headRef baseRef : String} {headTip baseTip : C}
    (hhead : s.objects headTip = true) (hbase : s.objects baseTip = true) :
    Inv parents { s.save s.numbers
      ⟨headRef, baseRef, baseTip, headTip, .opened, none, none, false⟩ with
        numbers := s.numbers + 1 } := by
  have hroom : Inv parents { s with numbers := s.numbers + 1 } :=
    ⟨fun n p hp => (h.numbers n p hp).trans (Nat.lt_succ_self _), h.rows, h.names, h.branches,
      h.heads, h.pending⟩
  refine hroom.save (Nat.lt_succ_self s.numbers) ⟨fun _ => rfl, fun hst => absurd rfl hst,
    fun _ => rfl, fun hst => (by cases hst)⟩ (fun c hc => ?_)
  cases hc with
  | head => exact hhead
  | final hf => cases hf
  | merge hm => cases hm
  | base => exact hbase

theorem pushed (h : Inv parents s) (hs : PushStep s s') : Inv parents s' := by
  cases hs with
  | objects grown =>
    refine ⟨h.numbers, h.rows, fun n p hp c hc => grown c (h.names n p hp c hc),
      fun b c hb => grown c (h.branches b c hb), fun n c hc => grown c (h.heads n c hc),
      fun id i hi => ?_⟩
    obtain ⟨hparents, hbase, hhead, hmerge⟩ := h.pending id i hi
    exact ⟨hparents, grown _ hbase, grown _ hhead, grown _ hmerge⟩
  | branch there => exact h.setBranch there _
  | record there => exact h.retain there _

variable [DecidableEq C]

theorem retainCas (h : Inv parents s) {oid : C} (hoid : s.objects oid = true) (n : Nat)
    (expected : Option C) : Inv parents (s.retainCas n oid expected) := by
  rw [Repo.retainCas]
  split_ifs
  · exact h.retain hoid n
  · exact h

theorem finalized (h : Inv parents s) {i : Intent C} (hi : s.pending i.id = some i)
    (hs : finalizeRows s i = some s') : Inv parents s' := by
  have hdone : Inv parents { s with pending := Function.update s.pending i.id none } :=
    h.setPending (fun j hj => by cases hj)
  obtain ⟨hparents, hbase, hhead, hmerge⟩ := h.pending _ i hi
  rw [finalizeRows] at hs
  cases hp : s.pulls i.pullNumber with
  | none =>
    rw [hp] at hs
    cases hs
  | some p =>
    rw [hp] at hs
    simp only at hs
    split_ifs at hs
    · cases hs
      refine hdone.save (h.numbers _ p hp) ⟨fun hst => (by cases hst), fun _ => rfl,
        fun hst => absurd rfl hst, fun _ => ⟨i.mergeOid, rfl, ?_⟩⟩ (fun c hc => ?_)
      · rw [hparents]
        exact List.mem_cons_self
      · cases hc with
        | head => exact hhead
        | final hf =>
          cases hf
          exact hhead
        | merge hm =>
          cases hm
          exact hmerge
        | base => exact hbase
    · cases hs
      exact hdone

theorem settle (h : Inv parents s) (hs : SettleStep s s') : Inv parents s' := by
  cases hs with
  | mark row => exact h.otherRefs s.bases s.merges _
  | retainHead row => exact h.retain (h.pending _ _ row).2.2.1 _
  | retainMerge row => exact h.otherRefs s.bases _ s.landed
  | finalize row rows => exact h.finalized row rows
  | abort row => exact h.setPending (fun j hj => by cases hj)
  | dropMarker stale => exact h.otherRefs s.bases s.merges _

end Inv

/-! ## Synchronization -/

/-- The retention ref holds the head of an open row, unless the row knows that its branch is
gone. -/
def Anchored (s : Repo C) (n : Nat) (p : Pull C) : Prop :=
  p.state = .opened → p.headGone = true ∨ s.heads n = some p.headSha

/-- What quiet pushes leave as it is. -/
structure Undisturbed (s s' : Repo C) : Prop where
  pulls : s'.pulls = s.pulls
  heads : s'.heads = s.heads
  bases : s'.bases = s.bases
  merges : s'.merges = s.merges
  pending : s'.pending = s.pending
  grown : ∀ c, s.objects c = true → s'.objects c = true

theorem Quiet.undisturbed (h : Quiet s s') : Undisturbed s s' := by
  obtain ⟨hpush, hheads⟩ := h
  cases hpush with
  | objects grown => exact ⟨rfl, rfl, rfl, rfl, rfl, grown⟩
  | branch there => exact ⟨rfl, rfl, rfl, rfl, rfl, fun _ hc => hc⟩
  | record there => exact ⟨rfl, hheads, rfl, rfl, rfl, fun _ hc => hc⟩

theorem Undisturbed.trans (h : Undisturbed s s') (h' : Undisturbed s' s'') :
    Undisturbed s s'' :=
  ⟨h'.pulls.trans h.pulls, h'.heads.trans h.heads, h'.bases.trans h.bases,
    h'.merges.trans h.merges, h'.pending.trans h.pending, fun c hc => h'.grown c (h.grown c hc)⟩

theorem Undisturbed.of_run (hs : Relation.ReflTransGen Quiet s s') : Undisturbed s s' := by
  induction hs with
  | refl => exact ⟨rfl, rfl, rfl, rfl, rfl, fun _ hc => hc⟩
  | tail _ hstep ih => exact ih.trans hstep.undisturbed

theorem Inv.quiet (h : Inv parents s) (hs : Relation.ReflTransGen Quiet s s') :
    Inv parents s' := by
  induction hs with
  | refl => exact h
  | tail _ hstep ih => exact ih.pushed hstep.1

theorem Anchored.quiet (h : Anchored s n p) (hs : Relation.ReflTransGen Quiet s s') :
    Anchored s' n p := by
  intro hopen
  rw [(Undisturbed.of_run hs).heads]
  exact h hopen

theorem save_pulls (s : Repo C) (n : Nat) (p : Pull C) : (s.save n p).pulls n = some p := by
  rw [Repo.save]
  exact Function.update_self ..

theorem retain_heads (s : Repo C) (n : Nat) (oid : C) : (s.retain n oid).heads n = some oid := by
  rw [Repo.retain]
  exact Function.update_self ..

/-- Only the row and the retention ref of pull request `n` change. -/
structure Elsewhere (n : Nat) (s s' : Repo C) : Prop where
  pulls : ∀ m ≠ n, s'.pulls m = s.pulls m
  heads : ∀ m ≠ n, s'.heads m = s.heads m
  pending : s'.pending = s.pending
  objects : s'.objects = s.objects

theorem Elsewhere.retain (n : Nat) (oid : C) : Elsewhere n s (s.retain n oid) :=
  ⟨fun _ _ => rfl, fun _ hm => Function.update_of_ne hm _ _, rfl, rfl⟩

theorem Elsewhere.save (h : Elsewhere n s s') : Elsewhere n s (s'.save n p) :=
  ⟨fun m hm => (Function.update_of_ne hm _ _).trans (h.pulls m hm), h.heads, h.pending, h.objects⟩

section Sync

variable [DecidableEq C] {kept : Nat → Option C} {tips : String → Option C}

theorem retainCas_cases (s : Repo C) (n : Nat) (oid : C) (expected : Option C) :
    s.retainCas n oid expected = s ∨
      s.heads n = expected ∧ s.retainCas n oid expected = s.retain n oid := by
  rw [Repo.retainCas]
  split_ifs with heq
  · exact .inr ⟨heq, rfl⟩
  · exact .inl rfl

/-- Where the branch was found, the retention ref moves only from what was read. -/
theorem syncOne_heads {t : C} (ht : tips p.headRef = some t) (s : Repo C) (n : Nat) :
    (syncOne kept tips s n p).heads = s.heads ∨ s.heads n = kept n ∧ kept n ≠ some t ∧
      (syncOne kept tips s n p).heads = Function.update s.heads n (some t) := by
  have hheads : (syncOne kept tips s n p).heads =
      (if kept n = some t then s else s.retainCas n t (kept n)).heads := by
    rw [syncOne, ht]
    simp only
    split_ifs <;> rfl
  rw [hheads]
  split_ifs with hkept
  · exact .inl rfl
  · rcases retainCas_cases s n t (kept n) with heq | ⟨hsame, heq⟩ <;> rw [heq]
    · exact .inl rfl
    · exact .inr ⟨hsame, hkept, rfl⟩

/-- A pull request whose retention ref is what was read is synchronized: if it stays open with its
branch, the ref holds the head that the row names. -/
theorem syncOne_spec (h : Inv parents s) (hp : s.pulls n = some p) (hopen : p.state = .opened)
    (htips : ∀ b c, tips b = some c → s.objects c = true) (hkept : s.heads n = kept n) :
    Inv parents (syncOne kept tips s n p) ∧ Elsewhere n s (syncOne kept tips s n p) ∧
      ∀ q, (syncOne kept tips s n p).pulls n = some q →
        Anchored (syncOne kept tips s n p) n q := by
  rw [syncOne]
  cases ht : tips p.headRef with
  | some t =>
    have hobj : s.objects t = true := htips p.headRef t ht
    obtain ⟨s₁, hs₁, hinv, hrest, hpulls, hhead⟩ : ∃ s₁,
        s₁ = (if kept n = some t then s else s.retainCas n t (kept n)) ∧ Inv parents s₁ ∧
          Elsewhere n s s₁ ∧ s₁.pulls = s.pulls ∧ s₁.heads n = some t := by
      refine ⟨_, rfl, ?_⟩
      split_ifs with heq
      · exact ⟨h, ⟨fun _ _ => rfl, fun _ _ => rfl, rfl, rfl⟩, rfl, hkept.trans heq⟩
      · rw [Repo.retainCas, if_pos hkept]
        exact ⟨h.retain hobj n, .retain n t, rfl, retain_heads s n t⟩
    simp only [← hs₁]
    have hrow : s₁.pulls n = some p := by rw [hpulls, hp]
    split_ifs with hchanged
    · refine ⟨hinv.moved hrow hopen (by rw [hrest.objects, hobj]), hrest.save, fun q hq => ?_⟩
      rw [save_pulls] at hq
      cases hq
      exact fun _ => .inr hhead
    · refine ⟨hinv, hrest, fun q hq => ?_⟩
      rw [hrow] at hq
      cases hq
      rw [not_or, not_not] at hchanged
      exact fun _ => .inr (hhead.trans (congrArg some hchanged.1.symm))
  | none =>
    simp only
    split_ifs with hgone
    · refine ⟨h, ⟨fun _ _ => rfl, fun _ _ => rfl, rfl, rfl⟩, fun q hq => ?_⟩
      rw [hp] at hq
      cases hq
      exact fun _ => .inl hgone
    · have hhead : s.objects ((s.heads n).getD p.headSha) = true := by
        cases hh : s.heads n with
        | none => exact h.names n p hp _ .head
        | some c => exact h.heads n c hh
      refine ⟨(h.retain hhead n).closed hp hopen hhead, (Elsewhere.retain n _).save,
        fun q hq => ?_⟩
      rw [save_pulls] at hq
      cases hq
      exact fun hst => by cases hst

theorem SyncRun.spec {ns : List Nat} (hrun : SyncRun Quiet kept tips ns s s') (hnodup : ns.Nodup)
    (h : Inv parents s) (htips : ∀ b c, tips b = some c → s.objects c = true)
    (hkept : ∀ n ∈ ns, s.heads n = kept n)
    (hopen : ∀ n ∈ ns, ∀ p, s.pulls n = some p → p.state = .opened) :
    Inv parents s' ∧ s'.pending = s.pending ∧
      (∀ n ∉ ns, s'.pulls n = s.pulls n ∧ s'.heads n = s.heads n) ∧
      ∀ n ∈ ns, ∀ p, s'.pulls n = some p → Anchored s' n p := by
  induction hrun with
  | done before =>
    have hund := Undisturbed.of_run before
    refine ⟨h.quiet before, hund.pending, fun n _ => ?_, fun n hn => ?_⟩
    · rw [hund.pulls, hund.heads]
      exact ⟨rfl, rfl⟩
    · cases hn
  | @one s s₁ s' n rest p before row after ih =>
    have hund := Undisturbed.of_run before
    obtain ⟨hfresh, hrest⟩ := List.nodup_cons.mp hnodup
    have hrow : s.pulls n = some p := by rw [← hund.pulls, row]
    obtain ⟨hinv, helse, hanch⟩ := syncOne_spec (h.quiet before) row
      (hopen n List.mem_cons_self p hrow) (fun b c hb => hund.grown c (htips b c hb))
      (by rw [hund.heads, hkept n List.mem_cons_self])
    have hne : ∀ m ∈ rest, m ≠ n := fun m hm heq => hfresh (heq ▸ hm)
    obtain ⟨hinv', hpending, hother, hdone⟩ := ih hrest hinv
      (fun b c hb => by rw [helse.objects, hund.grown c (htips b c hb)])
      (fun m hm => by
        rw [helse.heads m (hne m hm), hund.heads, hkept m (List.mem_cons_of_mem n hm)])
      (fun m hm q hq => by
        rw [helse.pulls m (hne m hm), hund.pulls] at hq
        exact hopen m (List.mem_cons_of_mem n hm) q hq)
    refine ⟨hinv', by rw [hpending, helse.pending, hund.pending], fun m hm => ?_,
      fun m hm q hq => ?_⟩
    · rw [List.mem_cons, not_or] at hm
      obtain ⟨hpulls, hheads⟩ := hother m hm.2
      rw [hpulls, hheads, helse.pulls m hm.1, helse.heads m hm.1, hund.pulls, hund.heads]
      exact ⟨rfl, rfl⟩
    · rcases List.mem_cons.mp hm with rfl | hm
      · -- Nothing after it touches the pull request that was synchronized first.
        obtain ⟨hpulls, hheads⟩ := hother m hfresh
        rw [hpulls] at hq
        intro hst
        rw [hheads]
        exact hanch q hq hst
      · exact hdone m hm q hq

end Sync

theorem mem_openPulls {n : Nat} : n ∈ s.openPulls ↔
    n < s.numbers ∧ ∃ p, s.pulls n = some p ∧ p.state = .opened := by
  rw [Repo.openPulls, List.mem_filter, List.mem_range]
  cases s.pulls n <;> simp

/-- After a synchronization the retention refs hold the heads of the open rows. -/
theorem SyncLocked.spec [DecidableEq C] (h : Inv parents s) (hs : SyncLocked Quiet s s') :
    Inv parents s' ∧ s'.pending = s.pending ∧
      ∀ n p, s'.pulls n = some p → Anchored s' n p := by
  obtain ⟨s₁, before, hrun⟩ := hs
  have hund := Undisturbed.of_run before
  have hinv := h.quiet before
  obtain ⟨hinv', hpending, hother, hdone⟩ := hrun.spec (List.nodup_range.filter _) hinv
    (fun b c hb => hinv.branches b c hb) (fun n _ => congrFun hund.heads n) (fun n hn p hp => by
      obtain ⟨-, q, hq, hopen⟩ := mem_openPulls.mp hn
      rw [hund.pulls, hq] at hp
      cases hp
      exact hopen)
  refine ⟨hinv', hpending.trans hund.pending, fun n p hp => ?_⟩
  by_cases hin : n ∈ s.openPulls
  · exact hdone n hin p hp
  · intro hopen
    rw [(hother n hin).1, hund.pulls] at hp
    exact absurd (mem_openPulls.mpr ⟨h.numbers n p hp, p, hp, hopen⟩) hin

/-! ## Maintenance -/

theorem Inv.repaired (h : Inv parents s) : Inv parents (repairRefs s) :=
  ⟨h.numbers, h.rows, h.names, h.branches, fun n _ hc => h.repairedHead n hc, h.pending⟩

theorem Anchored.repaired (h : Anchored s n p) (hp : s.pulls n = some p) :
    Anchored (repairRefs s) n p := by
  intro hopen
  rcases h hopen with hgone | hhead
  · exact .inl hgone
  · by_cases hgone : p.headGone = true
    · exact .inl hgone
    · right
      change Retention.repairedHead (s.pulls n) (s.heads n) = some p.headSha
      rw [hp, hhead, Retention.repairedHead, if_pos hopen, if_neg hgone]

theorem Inv.pruned (h : Inv parents s) (hpending : ∀ id, s.pending id = none)
    (hreach : ∀ n p c, s.pulls n = some p → Names p c → Reaches parents s c)
    (hp : Pruned parents s s') : Inv parents s' := by
  obtain ⟨hrest, -, hkept⟩ := hp
  rw [hrest]
  refine ⟨h.numbers, h.rows, fun n p hrow c hc => ?_, fun b c hb => ?_, fun n c hc => ?_,
    fun id i hi => ?_⟩
  · exact hkept c (h.names n p hrow c hc) (hreach n p c hrow hc)
  · exact hkept c (h.branches b c hb) ⟨c, .branch b hb, .refl⟩
  · exact hkept c (h.heads n c hc) ⟨c, .head n hc, .refl⟩
  · rw [hpending id] at hi
    cases hi

variable [DecidableEq C]

theorem Inv.settled (h : Inv parents s)
    (hs : Relation.ReflTransGen (fun a b => SettleStep a b ∨ PushStep a b) s s') :
    Inv parents s' := by
  induction hs with
  | refl => exact h
  | tail _ hstep ih => exact hstep.elim ih.settle ih.pushed

/-- Where the roots have been verified after a synchronization, a ref reaches what a row names, also
once quiet pushes have moved the branches. -/
theorem reaches_of_verified (h : Inv parents s) (hp : s.pulls n = some p) (hanch : Anchored s n p)
    (hv : verifyRoots s = true) (hund : Undisturbed s s') {c : C} (hc : Names p c) :
    Reaches parents s' c := by
  have hheld : rootsHeld s n p = true := by
    rw [verifyRoots, List.all_eq_true] at hv
    have hrow := hv n (List.mem_range.mpr (h.numbers n p hp))
    rwa [hp] at hrow
  have hrow := h.rows n p hp
  rw [rootsHeld, Bool.and_eq_true, Bool.and_eq_true] at hheld
  obtain ⟨⟨hok, hmerge⟩, hbase⟩ := hheld
  have hended : p.state ≠ .opened → s.heads n = some p.headSha := by
    intro hst
    rw [if_neg hst, hrow.ended hst] at hok
    simpa using hok
  have hhead : s'.heads n = some p.headSha := by
    rw [hund.heads]
    by_cases hst : p.state = .opened
    · by_cases hgone : p.headGone = true
      · rw [if_pos hst, hgone] at hok
        simpa using hok
      · exact (hanch hst).resolve_left hgone
    · exact hended hst
  have hmerged : ∀ m, p.mergeCommit = some m → s'.merges n = some m := by
    intro m hm
    have hst : p.state = .merged := by
      by_contra hst
      rw [hrow.unmerged hst] at hm
      cases hm
    rw [hst, hm] at hmerge
    rw [hund.merges]
    simpa using hmerge
  cases hc with
  | head => exact ⟨_, .head n hhead, .refl⟩
  | final hf =>
    have hst : p.state ≠ .opened := by
      intro hst
      rw [hrow.opened hst] at hf
      cases hf
    rw [hrow.ended hst] at hf
    cases hf
    exact ⟨_, .head n hhead, .refl⟩
  | merge hm => exact ⟨_, .merge n (hmerged c hm), .refl⟩
  | base =>
    by_cases hst : p.state = .merged
    · obtain ⟨m, hm, hin⟩ := hrow.merged hst
      exact ⟨m, .merge n (hmerged m hm), .single hin⟩
    · have hobj := h.names n p hp _ .base
      have hheld : s.bases n = some p.baseSha := by simpa [hst, hobj] using hbase
      rw [← hund.bases] at hheld
      exact ⟨_, .base n hheld, .refl⟩

theorem Maintained.spec (h : Inv parents s) (hm : Maintained Quiet s s') : Inv parents s' ∧
    (∀ id, s'.pending id = none) ∧
    ∀ n p c, s'.pulls n = some p → Names p c → Reaches parents s' c := by
  obtain ⟨s₁, s₂, s₃, s₄, hsettle, hpending, hsync, hrepair, hverify, hv, hprune⟩ := hm
  obtain ⟨hinv₂, hpending₂, hanch⟩ := SyncLocked.spec (h.settled hsettle) hsync
  have hinv₄ := (hinv₂.quiet hrepair).repaired.quiet hverify
  have hund₃ := Undisturbed.of_run hrepair
  have hund₄ := Undisturbed.of_run hverify
  have hund := Undisturbed.of_run hprune
  refine ⟨hinv₄.quiet hprune, fun id => ?_, fun n p c hp hc => ?_⟩
  · rw [hund.pending, hund₄.pending]
    change s₃.pending id = none
    rw [hund₃.pending, hpending₂, hpending]
  · rw [hund.pulls] at hp
    have hp₃ : s₃.pulls n = some p := (congrFun hund₄.pulls n).symm.trans hp
    have hp₂ : s₂.pulls n = some p := (congrFun hund₃.pulls n).symm.trans hp₃
    exact reaches_of_verified hinv₄ hp
      ((((hanch n p hp₂).quiet hrepair).repaired hp₃).quiet hverify) hv hund hc

/-! ## Runs -/

theorem Step.inv (hs : Step parents s s') (h : Inv parents s) : Inv parents s' := by
  cases hs with
  | push hstep => exact h.pushed hstep
  | retain there => exact h.retain there _
  | insert there => exact h.inserted there.1 there.2
  | close row opened there => exact h.closed row opened there
  | @reopen n p gone row closed read =>
    have hrow := h.rows n p row
    refine h.save (h.numbers n p row) ⟨fun _ => rfl, fun hst => absurd rfl hst, fun _ => ?_,
      fun hst => (by cases hst)⟩ (fun c hc => ?_)
    · exact hrow.unmerged (by rw [closed]; decide)
    · cases hc with
      | head => exact h.names n p row _ .head
      | final hf => cases hf
      | merge hm => exact h.names n p row c (.merge hm)
      | base => exact h.names n p row _ .base
  | @retarget n p base tip row unmerged there =>
    have hrow := h.rows n p row
    refine h.save (h.numbers n p row) ⟨hrow.opened, hrow.ended, hrow.unmerged,
      fun hst => absurd hst unmerged⟩ (fun c hc => ?_)
    cases hc with
    | head => exact h.names n p row _ .head
    | final hf => exact h.names n p row c (.final hf)
    | merge hm => exact h.names n p row c (.merge hm)
    | base => exact there
  | syncRef there => exact h.retainCas there _ _
  | syncRow row opened there => exact h.moved row opened there
  | @repairHead n => exact h.setHead (fun c hc => h.repairedHead n hc) n
  | repairMerge => exact h.otherRefs s.bases _ s.landed
  | repairBase => exact h.otherRefs _ s.merges s.landed
  | journal fresh commit there =>
    refine h.setPending (fun j hj => ?_)
    cases hj
    exact ⟨commit, there⟩
  | publish row head base =>
    refine h.setBranch (fun c hc => ?_) _
    cases hc
    exact (h.pending _ _ row).2.2.2
  | settle hstep => exact h.settle hstep
  | maintain hm pruned =>
    obtain ⟨hinv, hpending, hreach⟩ := Maintained.spec h hm
    exact hinv.pruned hpending hreach pruned

theorem Reachable.inv (hr : Reachable parents s) : Inv parents s := by
  induction hr with
  | refl => exact .empty
  | tail _ hstep ih => exact hstep.inv ih

/-- Whatever was written before, also by operations that stopped on the way: when maintenance
prunes, a ref reaches every commit that the row of a pull request names. Pushes may have moved
branches meanwhile, but none has recorded a deleted head. A synchronization moves the retention ref
of a pull request whose branch it found only from what it read, and to what it found. -/
theorem pull_commits_kept (hr : Reachable parents s) (hm : Maintained Quiet s s')
    (hp : Pruned parents s' s'') :
    (∀ n p c, s'.pulls n = some p → Names p c →
      Reaches parents s' c ∧ s''.objects c = true) ∧
    ∀ (kept : Nat → Option C) (tips : String → Option C) (u : Repo C) (n : Nat) (p : Pull C)
      (t : C), tips p.headRef = some t →
      (syncOne kept tips u n p).heads = u.heads ∨ u.heads n = kept n ∧ kept n ≠ some t ∧
        (syncOne kept tips u n p).heads = Function.update u.heads n (some t) := by
  obtain ⟨hinv, -, hreach⟩ := Maintained.spec hr.inv hm
  refine ⟨fun n p c hrow hc => ?_, fun kept tips u n p t ht => syncOne_heads ht u n⟩
  exact ⟨hreach n p c hrow hc, hp.kept c (hinv.names n p hrow c hc) (hreach n p c hrow hc)⟩

/-- Each commit follows the one before it. -/
def linear (c : Nat) : List Nat :=
  if c = 0 then [] else [c - 1]

theorem linear_le {a b : Nat} (h : Ancestor linear a b) : a ≤ b := by
  induction h with
  | refl => exact le_rfl
  | tail _ hstep ih =>
    rw [linear] at hstep
    split_ifs at hstep
    · cases hstep
    · rw [List.mem_singleton] at hstep
      omega

/-- The row of the pull request that is opened from `topic` at its second commit. -/
def topicPull : Pull Nat :=
  ⟨"topic", "main", 0, 2, .opened, none, none, false⟩

def topicRepo : Repo Nat :=
  let s := { (Repo.empty : Repo Nat) with objects := fun _ => true }
  { (((s.setBranch "main" (some 0)).setBranch "topic" (some 2)).retain 1 2).save 1 topicPull with
    numbers := 2 }

theorem topicRepo_reachable : Reachable linear topicRepo := by
  let s : Repo Nat := { (Repo.empty : Repo Nat) with objects := fun _ => true }
  have hobjects : Reachable linear s := .single (.push (.objects (fun _ _ => rfl)))
  have hmain : Reachable linear (s.setBranch "main" (some 0)) :=
    hobjects.tail (.push (.branch (fun _ _ => rfl)))
  have htopic : Reachable linear ((s.setBranch "main" (some 0)).setBranch "topic" (some 2)) :=
    hmain.tail (.push (.branch (fun _ _ => rfl)))
  have hretain : Reachable linear
      (((s.setBranch "main" (some 0)).setBranch "topic" (some 2)).retain 1 2) :=
    htopic.tail (.retain rfl)
  exact hretain.tail (.insert ⟨rfl, rfl⟩)

/-- Nothing changes until the roots have been verified. -/
theorem topicRepo_maintained {others : Repo Nat → Repo Nat → Prop} {s' : Repo Nat}
    (h : Relation.ReflTransGen others (repairRefs topicRepo) s') :
    Maintained others topicRepo s' := by
  refine ⟨topicRepo, topicRepo, topicRepo, repairRefs topicRepo, .refl, fun _ => rfl, ?_, .refl,
    .refl, by decide, h⟩
  exact ⟨topicRepo, .refl, .one (n := 1) (p := topicPull) .refl rfl (.done .refl)⟩

theorem pull_commits_kept_forced : ∃ s' : Repo Nat, Maintained Quiet topicRepo s' ∧
    s'.branches "topic" = some 1 ∧ Reaches linear s' 2 := by
  have hm : Maintained Quiet topicRepo ((repairRefs topicRepo).setBranch "topic" (some 1)) :=
    topicRepo_maintained (.single ⟨.branch (fun _ _ => rfl), rfl⟩)
  refine ⟨_, hm, by decide, ?_⟩
  exact ((pull_commits_kept topicRepo_reachable hm ⟨rfl, fun _ h => h, fun _ h _ => h⟩).1 1
    topicPull 2 rfl .head).1

/-- A push that forces a head back and deletes it during maintenance leaves the head that the row
names without a ref, and a synchronization moves the retention ref back with a branch. -/
theorem forced_head_dropped :
    (∃ s' p, Maintained PushStep topicRepo s' ∧ s'.pulls 1 = some p ∧
      s'.objects p.headSha = true ∧ ¬ Reaches linear s' p.headSha) ∧
    ∃ s s' : Repo Nat, Reachable linear s ∧ SyncLocked Quiet s s' ∧ s.heads 1 = some 2 ∧
      s'.heads 1 = some 1 ∧ Ancestor linear 1 2 := by
  constructor
  · refine ⟨(((repairRefs topicRepo).setBranch "topic" (some 1)).retain 1 1).setBranch "topic" none,
      topicPull, topicRepo_maintained ?_, rfl, rfl, ?_⟩
    · exact ((Relation.ReflTransGen.single (.branch (fun _ _ => rfl))).tail (.record rfl)).tail
        (.branch (fun _ h => by cases h))
    · rintro ⟨root, hroot, hanc⟩
      have hle : 2 ≤ root := linear_le hanc
      have hrow : ∀ n ≠ 1, topicRepo.pulls n = none := fun n hn => Function.update_of_ne hn _ _
      have hsmall : root ≤ 1 := by
        cases hroot with
        | branch b h =>
          by_cases hb : b = "main"
          · subst hb
            cases h
            exact Nat.zero_le 1
          · by_cases hb' : b = "topic"
            · subst hb'
              cases h
            · have h := (Function.update_of_ne hb' _ _).symm.trans h
              have h := (Function.update_of_ne hb' _ _).symm.trans h
              have h := (Function.update_of_ne hb' _ _).symm.trans h
              have h := (Function.update_of_ne hb _ _).symm.trans h
              cases h
        | head n h =>
          by_cases hn : n = 1
          · subst hn
            cases h
            exact le_rfl
          · have h := (Function.update_of_ne hn _ _).symm.trans h
            change repairedHead (topicRepo.pulls n) _ = some root at h
            rw [hrow n hn] at h
            cases h
        | base n h =>
          change repairedBase _ (topicRepo.pulls n) _ = some root at h
          by_cases hn : n = 1
          · subst hn
            cases h
            exact Nat.zero_le 1
          · rw [hrow n hn] at h
            cases h
        | merge n h =>
          change repairedMerge (topicRepo.pulls n) _ = some root at h
          by_cases hn : n = 1
          · subst hn
            cases h
          · rw [hrow n hn] at h
            cases h
        | landed id h => cases h
      omega
  · have hforced : Reachable linear (topicRepo.setBranch "topic" (some 1)) :=
      topicRepo_reachable.tail (.push (.branch (fun _ _ => rfl)))
    refine ⟨_, _, hforced, ⟨_, .refl, .one (n := 1) (p := topicPull) .refl rfl (.done .refl)⟩, rfl,
      rfl, .single (by decide)⟩

end SrcControl.Retention
