import SrcControl.Repo.Fill

/-!
# What a fetch brings

Against an origin that answers a batch exactly or refuses it as too large, a fetch only adds what
was asked for, and all of it when it succeeds. Against any origin a success means that every batch
that was answered was answered exactly.
-/

namespace SrcControl.Fill

open Wire (Source)
open Pack (Zstd packRecords)
open Transport (ingestPackFileImpl Refused Crosses Stored Extends)

/-- The records of a reply. -/
def FillEnv.records (env : FillEnv) (r : Reply) : List Record :=
  (packRecords env.z env.hash env.max r.pack).1

/-- Every id of the batch was sent, and nothing else was sent or refused. -/
def Exact (env : FillEnv) (ids : List ObjectId) (r : Reply) : Prop :=
  r.notSent = [] ∧ ∀ id, id ∈ (env.records r).map (·.1) ↔ id ∈ ids

/-- The batch was refused as too large or answered exactly. -/
def Answered (env : FillEnv) (batch : List ObjectId × Except Refusal Reply) : Prop :=
  batch.2 = .error .packTooLarge ∨ ∃ r, batch.2 = .ok r ∧ Exact env batch.1 r

theorem find?_toList_eq_none {s : BTreeSet ObjectId} {p : ObjectId → Bool} :
    s.toList.find? p = none ↔ ∀ id ∈ s, p id = false := by
  rw [List.find?_eq_none]
  simp only [Std.ExtTreeSet.mem_toList, Bool.not_eq_true]

theorem checkReply_ok_iff {ids notSent found : List ObjectId} :
    checkReply (BTreeSet.ofList ids) (BTreeSet.ofList notSent) found = .ok () ↔
      (∀ id ∈ found, id ∈ ids) ∧ (∀ id ∈ notSent, id ∈ ids) ∧ (∀ id ∈ found, id ∉ notSent) ∧
        ∀ id ∈ ids, id ∈ found ∨ id ∈ notSent := by
  have hcontains : ∀ (xs : List ObjectId) (id : ObjectId),
      (BTreeSet.ofList xs).contains id = true ↔ id ∈ xs := by
    intro xs id
    rw [Std.ExtTreeSet.contains_iff_mem, BTreeSet.mem_ofList]
  have hmem := @BTreeSet.mem_ofList ObjectId _ _ _ _
  have hfind : ∀ (xs : List ObjectId) (p : ObjectId → Bool),
      (BTreeSet.ofList xs).toList.find? p = none ↔ ∀ id ∈ xs, p id = false := by
    intro xs p
    simp only [find?_toList_eq_none, BTreeSet.mem_ofList]
  simp only [checkReply]
  constructor
  · intro h
    split at h
    · cases h
    · next h₁ =>
      split at h
      · cases h
      · next h₂ =>
        split at h
        · cases h
        · next h₃ =>
          split at h
          · cases h
          · next h₄ =>
            rw [hfind] at h₁ h₂ h₃ h₄
            refine ⟨fun id hid => ?_, fun id hid => ?_, fun id hid hno => ?_, fun id hid => ?_⟩
            · exact (hcontains ids id).mp (by simpa using h₁ id hid)
            · exact (hcontains ids id).mp (by simpa using h₂ id hid)
            · have hfree := h₃ id hid
              rw [(hcontains notSent id).mpr hno] at hfree
              cases hfree
            · have hsome := h₄ id hid
              by_contra hneither
              obtain ⟨hf, hn⟩ := not_or.mp hneither
              rw [← hcontains, Bool.not_eq_true] at hf hn
              rw [hf, hn] at hsome
              cases hsome
  · rintro ⟨h₁, h₂, h₃, h₄⟩
    have e₁ : ∀ id ∈ found, (!(BTreeSet.ofList ids).contains id) = false := fun id hid => by
      rw [(hcontains ids id).mpr (h₁ id hid)]
      rfl
    have e₂ : ∀ id ∈ notSent, (!(BTreeSet.ofList ids).contains id) = false := fun id hid => by
      rw [(hcontains ids id).mpr (h₂ id hid)]
      rfl
    have e₃ : ∀ id ∈ found, (BTreeSet.ofList notSent).contains id = false := fun id hid =>
      Bool.eq_false_iff.mpr (mt (hcontains notSent id).mp (h₃ id hid))
    have e₄ : ∀ id ∈ ids, (!(BTreeSet.ofList found).contains id &&
        !(BTreeSet.ofList notSent).contains id) = false := fun id hid => by
      rcases h₄ id hid with hf | hn
      · rw [(hcontains found id).mpr hf]
        rfl
      · rw [(hcontains notSent id).mpr hn]
        simp
    rw [(hfind found _).mpr e₁, (hfind notSent _).mpr e₂, (hfind found _).mpr e₃,
      (hfind ids _).mpr e₄]

/-! ## Any origin -/

section AnyOrigin

variable {env : FillEnv}

/-- A round trip that succeeds was answered exactly. -/
theorem fetchByIdFrom_ok {ids : List ObjectId} {s : FillState} {n : Nat}
    (h : (fetchByIdFrom env ids s).1 = .ok n) :
    ∃ r, env.reply s.requests ids = .ok r ∧ Exact env ids r := by
  unfold fetchByIdFrom at h
  cases hreply : env.reply s.requests ids with
  | error e => simp [hreply] at h
  | ok r =>
    simp only [hreply] at h
    have haccepted : ¬Refused env.z env.hash env.max r.pack
        (some (BTreeSet.ofList ids).toList.length)
        (checkReply (BTreeSet.ofList ids) (BTreeSet.ofList r.notSent)) none := by
      intro hrefused
      obtain ⟨-, e, he⟩ := @Transport.ingest_refused _ _ _ _ r.pack s.store _ _ false _ env.index
        hrefused
      rw [he] at h
      cases h
    have hcheck : checkReply (BTreeSet.ofList ids) (BTreeSet.ofList r.notSent)
        ((env.records r).map (·.1)) = .ok () := by
      rw [Refused, not_or, not_or] at haccepted
      cases hc : checkReply (BTreeSet.ofList ids) (BTreeSet.ofList r.notSent)
          ((env.records r).map (·.1)) with
      | ok _ => rfl
      | error e => exact absurd ⟨e, hc⟩ haccepted.2.2
    obtain ⟨hfound, -, -, hall⟩ := checkReply_ok_iff.mp hcheck
    have hnone : r.notSent = [] := by
      split at h
      · cases h
      · split at h
        · cases h
        · next hhead => exact List.head?_eq_none_iff.mp hhead
    refine ⟨r, rfl, hnone, fun id => ⟨hfound id, fun hid => ?_⟩⟩
    exact (hall id hid).resolve_right (by rw [hnone]; exact List.not_mem_nil)

theorem fetchByIdFrom_log (env : FillEnv) (ids : List ObjectId) (s : FillState) :
    (fetchByIdFrom env ids s).2.log = s.log ++ [(ids, env.reply s.requests ids)] := by
  unfold fetchByIdFrom
  cases env.reply s.requests ids with
  | error e => rfl
  | ok r =>
    dsimp only
    split
    · rfl
    · split <;> rfl

/-- What a round trip that fails as too large was answered. -/
theorem fetchByIdFrom_tooLarge {ids : List ObjectId} {s : FillState}
    (h : (fetchByIdFrom env ids s).1 = .error (.refused .packTooLarge)) :
    env.reply s.requests ids = .error .packTooLarge := by
  unfold fetchByIdFrom at h
  cases hreply : env.reply s.requests ids with
  | error e =>
    simp only [hreply] at h
    rw [FillError.refused.inj (Except.error.inj h)]
  | ok r =>
    simp only [hreply] at h
    split at h
    · cases h
    · split at h <;> cases h

/-- The ways a split fetch goes: one round trip that succeeds or fails, or two halves. -/
theorem fetchIdsSplit_rule {R : List ObjectId → FillState → Filled → Prop}
    (hok : ∀ ids s n s', fetchByIdFrom env ids { s with requests := s.requests + 1 } = (.ok n, s') →
      R ids s (.ok (), { s' with objects := s'.objects + n }))
    (hfail : ∀ ids s e s',
      fetchByIdFrom env ids { s with requests := s.requests + 1 } = (.error e, s') →
      R ids s (.error e, s'))
    (hstop : ∀ ids s s₁ e s₂, fetchByIdFrom env ids { s with requests := s.requests + 1 } =
      (.error (.refused .packTooLarge), s₁) → R (ids.take (ids.length / 2)) s₁ (.error e, s₂) →
      R ids s (.error e, s₂))
    (hsplit : ∀ ids s s₁ s₂ out, fetchByIdFrom env ids { s with requests := s.requests + 1 } =
      (.error (.refused .packTooLarge), s₁) → R (ids.take (ids.length / 2)) s₁ (.ok (), s₂) →
      R (ids.drop (ids.length / 2)) s₂ out → R ids s out)
    (ids : List ObjectId) (s : FillState) : R ids s (fetchIdsSplit env ids s) := by
  have hrun : ∀ n (ids : List ObjectId) (s : FillState), ids.length ≤ n →
      R ids s (fetchIdsSplit env ids s) := by
    intro n
    induction n with
    | zero =>
      intro ids s hlen
      rw [fetchIdsSplit]
      split
      · next k s₁ hone => exact hok ids s k s₁ hone
      · next s₁ hone =>
        rw [dif_neg (by omega)]
        exact hfail ids s _ s₁ hone
      · next e s₁ _ hone => exact hfail ids s e s₁ hone
    | succ n ih =>
      intro ids s hlen
      rw [fetchIdsSplit]
      split
      · next k s₁ hone => exact hok ids s k s₁ hone
      · next s₁ hone =>
        split_ifs with hmany
        · have hleft := ih (ids.take (ids.length / 2)) s₁ (by rw [List.length_take]; omega)
          split
          · next s₂ hrun =>
            rw [hrun] at hleft
            exact hsplit ids s s₁ s₂ _ hone hleft (ih _ s₂ (by rw [List.length_drop]; omega))
          · next e s₂ hrun =>
            rw [hrun] at hleft
            exact hstop ids s s₁ e s₂ hone hleft
        · exact hfail ids s _ s₁ hone
      · next e s₁ _ hone => exact hfail ids s e s₁ hone
  exact hrun ids.length ids s (Nat.le_refl _)

/-- The ways a fetch in chunks goes. -/
theorem fetchIdsChunked_rule {R : List ObjectId → FillState → Filled → Prop} {maxIds : Nat}
    (hmax : maxIds ≠ 0) (hnil : ∀ s, R [] s (.ok (), s))
    (hstop : ∀ ids s e s₁, fetchIdsSplit env (ids.take maxIds) s = (.error e, s₁) →
      R ids s (.error e, s₁))
    (hcons : ∀ ids s s₁ out, fetchIdsSplit env (ids.take maxIds) s = (.ok (), s₁) →
      R (ids.drop maxIds) s₁ out → R ids s out)
    (ids : List ObjectId) (s : FillState) : R ids s (fetchIdsChunked env maxIds ids s) := by
  have hrun : ∀ n (ids : List ObjectId) (s : FillState), ids.length ≤ n →
      R ids s (fetchIdsChunked env maxIds ids s) := by
    intro n
    induction n with
    | zero =>
      intro ids s hlen
      obtain rfl := List.length_eq_zero_iff.mp (Nat.le_zero.mp hlen)
      rw [fetchIdsChunked, dif_pos (.inl rfl)]
      exact hnil s
    | succ n ih =>
      intro ids s hlen
      rw [fetchIdsChunked]
      split_ifs with hend
      · obtain rfl := hend.resolve_right hmax
        exact hnil s
      · have hpos := List.length_pos_of_ne_nil (not_or.mp hend).1
        split
        · next s₁ hone =>
          exact hcons ids s s₁ _ hone (ih _ s₁ (by rw [List.length_drop]; omega))
        · next e s₁ hone => exact hstop ids s e s₁ hone
  exact hrun ids.length ids s (Nat.le_refl _)

/-- Every batch that was answered so far was answered exactly. -/
def AllAnswered (env : FillEnv) (s : FillState) : Prop := ∀ b ∈ s.log, Answered env b

theorem AllAnswered.attempt {s s' : FillState} {ids : List ObjectId} {n : Nat}
    (h : AllAnswered env s) (hlog : s'.log = s.log ++ [(ids, env.reply n ids)])
    (hone : Answered env (ids, env.reply n ids)) : AllAnswered env s' := by
  intro b hb
  rw [hlog] at hb
  rcases List.mem_append.mp hb with hb | hb
  · exact h b hb
  · rw [List.mem_singleton.mp hb]
    exact hone

theorem fetchIdsSplit_answered (env : FillEnv) (ids : List ObjectId) (s : FillState)
    (hok : (fetchIdsSplit env ids s).1 = .ok ()) (hs : AllAnswered env s) :
    AllAnswered env (fetchIdsSplit env ids s).2 := by
  refine fetchIdsSplit_rule (R := fun _ s out => out.1 = .ok () → AllAnswered env s →
    AllAnswered env out.2) ?_ ?_ ?_ ?_ ids s hok hs
  · intro ids s n s' hone _ hs
    have hlog := fetchByIdFrom_log env ids { s with requests := s.requests + 1 }
    obtain ⟨r, hr, hexact⟩ := fetchByIdFrom_ok (congrArg Prod.fst hone)
    rw [hone] at hlog
    exact AllAnswered.attempt hs hlog (.inr ⟨r, hr, hexact⟩)
  · intro _ _ _ _ _ h
    cases h
  · intro _ _ _ _ _ _ _ h
    cases h
  · intro ids s s₁ s₂ out hone hleft hright hout hs
    have hlog := fetchByIdFrom_log env ids { s with requests := s.requests + 1 }
    have hlarge := fetchByIdFrom_tooLarge (congrArg Prod.fst hone)
    rw [hone] at hlog
    exact hright hout (hleft rfl (AllAnswered.attempt hs hlog (.inl hlarge)))

theorem fetchIdsChunked_answered {maxIds : Nat} (hmax : maxIds ≠ 0) (ids : List ObjectId)
    (s : FillState) (hok : (fetchIdsChunked env maxIds ids s).1 = .ok ())
    (hs : AllAnswered env s) : AllAnswered env (fetchIdsChunked env maxIds ids s).2 := by
  refine fetchIdsChunked_rule (R := fun _ s out => out.1 = .ok () → AllAnswered env s →
    AllAnswered env out.2) hmax (fun _ _ hs => hs) ?_ ?_ ids s hok hs
  · intro _ _ _ _ _ h
    cases h
  · intro ids s s₁ out hone hrest hout hs
    have hfirst := fetchIdsSplit_answered env (ids.take maxIds) s
      (congrArg Prod.fst hone) hs
    rw [hone] at hfirst
    exact hrest hout hfirst

/-- The ways `ensure_many` goes: nothing is absent, filling is not allowed, or the absent ids are
fetched. -/
theorem ensureMany_cases (env : FillEnv) (origin : Option String) (ids : BTreeSet ObjectId)
    (path : String) (tree : Bool) (s : FillState) :
    (ensureMany env origin ids path tree s = (.ok (), s) ∧
        ∀ id ∈ ids, s.store.contains id = true) ∨
      (∃ e, ensureMany env origin ids path tree s = (.error (.repo e), s)) ∨
      ensureMany env origin ids path tree s = fetchIdsChunked env MAX_GET_OBJECTS_IDS
        (ids.toList.filter (fun id => !s.store.contains id)) { s with opened := true } := by
  unfold ensureMany
  dsimp only
  cases habsent : (ids.toList.filter (fun id => !s.store.contains id)).head? with
  | none =>
    refine .inl ⟨rfl, fun id hid => ?_⟩
    have hnil := List.head?_eq_none_iff.mp habsent
    have hno := List.filter_eq_nil_iff.mp hnil id (Std.ExtTreeSet.mem_toList.mpr hid)
    simpa using hno
  | some first =>
    cases origin with
    | none => cases env.promisor <;> exact .inr (.inl ⟨_, rfl⟩)
    | some url =>
      dsimp only
      split
      · exact .inr (.inl ⟨_, rfl⟩)
      · exact .inr (.inr rfl)

theorem ensureMany_answered (env : FillEnv) (origin : Option String) (ids : BTreeSet ObjectId)
    (path : String) (tree : Bool) (s : FillState) (hok : (ensureMany env origin ids path tree s).1 = .ok ())
    (hs : AllAnswered env s) : AllAnswered env (ensureMany env origin ids path tree s).2 := by
  rcases ensureMany_cases env origin ids path tree s with ⟨hrun, -⟩ | ⟨e, hrun⟩ | hrun
  · rw [hrun]
    exact hs
  · rw [hrun] at hok
    cases hok
  · rw [hrun] at hok ⊢
    exact fetchIdsChunked_answered (by decide) _ _ hok hs

theorem fillRounds_answered (origin : Option String) (sparse : Sparse) (fuel : Nat)
    (frontier : List (ObjectId × String)) (seen : List (ObjectId × Option String)) (s : FillState)
    (hok : (fillRounds env origin sparse fuel frontier seen s).1 = .ok ())
    (hs : AllAnswered env s) :
    AllAnswered env (fillRounds env origin sparse fuel frontier seen s).2 := by
  induction fuel generalizing frontier seen s with
  | zero =>
    cases frontier with
    | nil => exact hs
    | cons first rest => cases hok
  | succ fuel ih =>
    cases frontier with
    | nil => exact hs
    | cons first rest =>
      rw [fillRounds] at hok ⊢
      cases hlevel : readLevel s.store sparse (first :: rest) ⟨∅, [], seen⟩ with
      | error e => simp [hlevel] at hok
      | ok l =>
        simp only [hlevel] at hok ⊢
        have hfetch := ensureMany_answered env origin l.want first.2 true s
        cases hrun : ensureMany env origin l.want first.2 true s with
        | mk result s₁ =>
          rw [hrun] at hfetch
          cases result with
          | error e => simp [hrun] at hok
          | ok _ =>
            simp only [hrun] at hok ⊢
            exact ih l.next l.seen s₁ hok (hfetch rfl hs)

/-- Against any origin, a fill that returns `Ok` had every batch refused as too large or answered
with exactly the requested objects. -/
theorem ensureView_answered (fuel : Nat) (root : ObjectId) (sparse : Sparse) (offline : Bool)
    (store : Store) (hok : (ensureView env fuel root sparse offline store).1 = .ok ()) :
    AllAnswered env (ensureView env fuel root sparse offline store).2 := by
  have hstart : AllAnswered env ⟨store, 0, 0, false, []⟩ := by
    intro b hb
    cases hb
  unfold ensureView at hok ⊢
  dsimp only at hok ⊢
  split_ifs at hok ⊢
  · exact hstart
  · cases horigin : fillOrigin env offline with
    | none => exact hstart
    | some url =>
      simp only [horigin, fillView] at hok ⊢
      have hfetch := ensureMany_answered env (some url) (BTreeSet.ofList [root]) "" true
        ⟨store, 0, 0, false, []⟩
      cases hrun : ensureMany env (some url) (BTreeSet.ofList [root]) "" true
          ⟨store, 0, 0, false, []⟩ with
      | mk result s₁ =>
        rw [hrun] at hfetch
        cases result with
        | error e => simp [hrun] at hok
        | ok _ =>
          simp only [hrun] at hok ⊢
          exact fillRounds_answered _ _ _ _ _ _ hok (hfetch rfl hstart)

end AnyOrigin

/-! ## An exact origin -/

/-- The store holds objects of `world` under their ids. -/
def Within (world : ObjectId → Option Object) (s : Store) : Prop :=
  ∀ id o, s.objects[id]? = some o → world id = some o

/-- A reply to a batch is a pack of exactly the objects asked for, each under the hash of its
encoding. -/
def Honest (env : FillEnv) (world : ObjectId → Option Object) : Prop :=
  ∀ n ids r, env.reply n ids = .ok r → r.notSent = [] ∧
    (packRecords env.z env.hash env.max r.pack).2 = none ∧
    ((env.records r).map (·.1)).Perm ids ∧
    ∀ rec ∈ env.records r, world rec.1 = some rec.2 ∧ rec.2.id env.hash = rec.1

/-- From one state to another a fetch only added, and only what it asked for, all of it in `A`. -/
structure Brought (world : ObjectId → Option Object) (A : ObjectId → Prop) (s s' : FillState) :
    Prop where
  within : Within world s'.store
  grows : Extends s.store s'.store
  asked : ∀ id, s'.store.contains id = true → s.store.contains id = true ∨
    A id ∧ ∃ b ∈ s'.log, id ∈ b.1
  log : ∀ b ∈ s.log, b ∈ s'.log

section Exact

variable {env : FillEnv} {world : ObjectId → Option Object}

theorem Brought.refl {A : ObjectId → Prop} {s : FillState} (h : Within world s.store) :
    Brought world A s s :=
  ⟨h, .refl _, fun _ h => .inl h, fun _ h => h⟩

theorem Brought.trans {A : ObjectId → Prop} {s₁ s₂ s₃ : FillState} (h : Brought world A s₁ s₂)
    (h' : Brought world A s₂ s₃) : Brought world A s₁ s₃ := by
  refine ⟨h'.within, h.grows.trans h'.grows, fun id hid => ?_,
    fun b hb => h'.log b (h.log b hb)⟩
  rcases h'.asked id hid with hold | hnew
  · exact (h.asked id hold).imp (fun h => h) fun ⟨hmem, b, hb, hin⟩ => ⟨hmem, b, h'.log b hb, hin⟩
  · exact .inr hnew

theorem Brought.mono {A A' : ObjectId → Prop} {s s' : FillState} (h : Brought world A s s')
    (hsub : ∀ id, A id → A' id) : Brought world A' s s' :=
  ⟨h.within, h.grows, fun id hid => (h.asked id hid).imp (fun h => h)
    fun ⟨hmem, hb⟩ => ⟨hsub id hmem, hb⟩, h.log⟩

theorem contains_iff {s : Store} {id : ObjectId} :
    s.contains id = true ↔ ∃ o, s.objects[id]? = some o := by
  rw [Store.contains, Std.ExtTreeMap.contains_eq_isSome_getElem?, Option.isSome_iff_exists]

theorem not_crosses {recs : List Record} {n max : Nat} (h : n + recs.length ≤ max) :
    ¬Crosses (some max) n none recs := by
  induction recs generalizing n with
  | nil => exact id
  | cons rec rest ih =>
    rw [List.length_cons] at h
    rw [Crosses]
    rintro (hbudget | hmax | hrest)
    · cases hbudget
    · have hlt := of_decide_eq_true hmax
      omega
    · exact ih (by omega) hrest

theorem length_ofList {ids : List ObjectId} (h : ids.Nodup) :
    (BTreeSet.ofList ids).toList.length = ids.length :=
  ((List.perm_ext_iff_of_nodup (BTreeSet.nodup_toList _) h).mpr fun id => by
    rw [BTreeSet.mem_toList_ofList]).length_eq

/-- What an exact reply makes of the store. -/
theorem reply_stored (hh : Honest env world) {n : Nat} {ids : List ObjectId} (hnd : ids.Nodup)
    {r : Reply} (hreply : env.reply n ids = .ok r) (store : Store) :
    Stored store (env.records r) (ingestPackFileImpl env.z env.hash env.max r.pack r.pack store
      (some (BTreeSet.ofList ids).toList.length)
      (checkReply (BTreeSet.ofList ids) (BTreeSet.ofList r.notSent)) false none
      env.index).store := by
  obtain ⟨hnone, hend, hperm, hrecs⟩ := hh _ _ _ hreply
  have hmem : ∀ id, id ∈ (env.records r).map (·.1) ↔ id ∈ ids := fun id => hperm.mem_iff
  have haccepted : ¬Refused env.z env.hash env.max r.pack
      (some (BTreeSet.ofList ids).toList.length)
      (checkReply (BTreeSet.ofList ids) (BTreeSet.ofList r.notSent)) none := by
    have hlen : (env.records r).length = ids.length := by
      rw [← hperm.length_eq, List.length_map]
    have hcheck : checkReply (BTreeSet.ofList ids) (BTreeSet.ofList r.notSent)
        ((env.records r).map (·.1)) = .ok () := by
      rw [hnone]
      exact checkReply_ok_iff.mpr ⟨fun id => (hmem id).mp, by simp, by simp,
        fun id hid => .inl ((hmem id).mpr hid)⟩
    rintro (hbad | hcross | ⟨e, he⟩)
    · exact hbad hend
    · refine not_crosses ?_ hcross
      change 0 + (env.records r).length ≤ _
      rw [length_ofList hnd, hlen, Nat.zero_add]
    · change checkReply _ _ ((env.records r).map (·.1)) = _ at he
      rw [hcheck] at he
      cases he
  have hsame : ∀ a ∈ (packRecords env.z env.hash env.max r.pack).1,
      ∀ b ∈ (packRecords env.z env.hash env.max r.pack).1, a.1 = b.1 → a.2 = b.2 := by
    intro a ha b hb hab
    have hx := (hrecs a ha).1
    rw [hab, (hrecs b hb).1] at hx
    exact (Option.some.inj hx).symm
  rw [← Transport.wantedRecords_false (env.records r)]
  refine (Transport.ingest_lands env.index rfl hsame haccepted ?_).1
  rw [Transport.wantedRecords_false]
  exact fun rec hrec => (hrecs rec hrec).2

/-- One round trip adds what it asked for, all of it when it succeeds. -/
theorem fetchByIdFrom_brought (hh : Honest env world) {ids : List ObjectId} (hnd : ids.Nodup)
    {s : FillState} (hw : Within world s.store) :
    Brought world (· ∈ ids) s (fetchByIdFrom env ids s).2 ∧
      ((∃ n, (fetchByIdFrom env ids s).1 = .ok n) →
        ∀ id ∈ ids, (fetchByIdFrom env ids s).2.store.contains id = true) ∧
      (fetchByIdFrom env ids s).1 ≠ .error .fuel := by
  have hlog := fetchByIdFrom_log env ids s
  cases hreply : env.reply s.requests ids with
  | error e =>
    have hrun : fetchByIdFrom env ids s =
        (.error (.refused e), { s with log := s.log ++ [(ids, .error e)] }) := by
      unfold fetchByIdFrom
      rw [hreply]
    rw [hrun]
    refine ⟨⟨hw, .refl _, fun _ h => .inl h, fun b hb => List.mem_append_left _ hb⟩, ?_, ?_⟩
    · rintro ⟨n, hn⟩
      cases hn
    · intro hf
      cases hf
  | ok r =>
    have hstored := reply_stored hh hnd hreply s.store
    obtain ⟨-, -, hperm, hrecs⟩ := hh _ _ _ hreply
    have hmem : ∀ id, id ∈ (env.records r).map (·.1) ↔ id ∈ ids := fun id => hperm.mem_iff
    generalize hout : ingestPackFileImpl env.z env.hash env.max r.pack r.pack s.store
      (some (BTreeSet.ofList ids).toList.length)
      (checkReply (BTreeSet.ofList ids) (BTreeSet.ofList r.notSent)) false none env.index = out
      at hstored
    have hrun : (fetchByIdFrom env ids s).2.store = out.store ∧
        (fetchByIdFrom env ids s).1 ≠ .error .fuel := by
      unfold fetchByIdFrom
      simp only [hreply, hout]
      split
      · exact ⟨rfl, fun h => by cases h⟩
      · split
        · exact ⟨rfl, fun h => by cases h⟩
        · exact ⟨rfl, fun h => by cases h⟩
    refine ⟨⟨?_, ?_, ?_, ?_⟩, ?_, hrun.2⟩
    · rw [hrun.1]
      intro id o ho
      rcases (hstored id o).mp ho with hold | ⟨-, hnew⟩
      · exact hw id o hold
      · exact (hrecs _ hnew).1
    · rw [hrun.1]
      exact fun id o ho => (hstored id o).mpr (.inl ho)
    · rw [hrun.1, hlog, hreply]
      intro id hid
      obtain ⟨o, ho⟩ := contains_iff.mp hid
      rcases (hstored id o).mp ho with hold | ⟨-, hnew⟩
      · exact .inl (contains_iff.mpr ⟨o, hold⟩)
      · have hin : id ∈ ids := (hmem id).mp (List.mem_map_of_mem hnew)
        exact .inr ⟨hin, _, List.mem_append_right _ List.mem_cons_self, hin⟩
    · rw [hlog]
      exact fun b hb => List.mem_append_left _ hb
    · rw [hrun.1]
      intro _ id hid
      obtain ⟨rec, hrec, rfl⟩ := List.mem_map.mp ((hmem id).mpr hid)
      cases hold : s.store.objects[rec.1]? with
      | some o => exact contains_iff.mpr ⟨o, (hstored _ _).mpr (.inl hold)⟩
      | none => exact contains_iff.mpr ⟨rec.2, (hstored _ _).mpr (.inr ⟨hold, hrec⟩)⟩

/-- A fetch step against an exact origin: it adds only what it asks for, and all of it when it
succeeds. -/
def FetchStep (world : ObjectId → Option Object) (ids : List ObjectId) (s : FillState)
    (out : Filled) : Prop :=
  Within world s.store → Brought world (· ∈ ids) s out.2 ∧
    (out.1 = .ok () → ∀ id ∈ ids, out.2.store.contains id = true) ∧ out.1 ≠ .error .fuel

theorem contains_of_extends {s t : Store} (h : Extends s t) {id : ObjectId}
    (hid : s.contains id = true) : t.contains id = true := by
  obtain ⟨o, ho⟩ := contains_iff.mp hid
  exact contains_iff.mpr ⟨o, h id o ho⟩

/-- Fetching the front and then the rest. -/
theorem FetchStep.append {left right : List ObjectId} {s s₁ : FillState} {out : Filled}
    (hleft : FetchStep world left s (.ok (), s₁)) (hright : FetchStep world right s₁ out) :
    FetchStep world (left ++ right) s out := by
  intro hw
  obtain ⟨hb₁, hall₁, -⟩ := hleft hw
  obtain ⟨hb₂, hall₂, hfuel⟩ := hright hb₁.within
  refine ⟨(hb₁.mono fun id => List.mem_append_left _).trans
    (hb₂.mono fun id => List.mem_append_right _), fun hok id hid => ?_, hfuel⟩
  rcases List.mem_append.mp hid with hid | hid
  · exact contains_of_extends hb₂.grows (hall₁ rfl id hid)
  · exact hall₂ hok id hid

theorem FetchStep.stop {left : List ObjectId} {s s₁ : FillState} {e : FillError}
    (hleft : FetchStep world left s (.error e, s₁)) (right : List ObjectId) :
    FetchStep world (left ++ right) s (.error e, s₁) := by
  intro hw
  obtain ⟨hb, -, hfuel⟩ := hleft hw
  refine ⟨hb.mono fun id => List.mem_append_left _, fun hok => ?_, hfuel⟩
  cases hok

theorem fetchIdsSplit_step (hh : Honest env world) (ids : List ObjectId) (hnd : ids.Nodup)
    (s : FillState) : FetchStep world ids s (fetchIdsSplit env ids s) := by
  have hone : ∀ {ids : List ObjectId} {s : FillState}, ids.Nodup → Within world s.store →
      Brought world (· ∈ ids) s
        (fetchByIdFrom env ids { s with requests := s.requests + 1 }).2 := by
    intro ids s hnd hw
    have hb := (fetchByIdFrom_brought hh hnd
      (s := { s with requests := s.requests + 1 }) hw).1
    exact ⟨hb.within, hb.grows, hb.asked, hb.log⟩
  have hhalves : ∀ ids : List ObjectId,
      ids.take (ids.length / 2) ++ ids.drop (ids.length / 2) = ids :=
    fun ids => List.take_append_drop _ ids
  refine fetchIdsSplit_rule (R := fun ids s out => ids.Nodup → FetchStep world ids s out)
    ?_ ?_ ?_ ?_ ids s hnd
  · intro ids s n s' hrun hnd hw
    obtain ⟨-, hall, -⟩ := fetchByIdFrom_brought hh hnd
      (s := { s with requests := s.requests + 1 }) hw
    have hb := hone hnd hw
    rw [hrun] at hall hb
    refine ⟨⟨hb.within, hb.grows, hb.asked, hb.log⟩, fun _ => hall ⟨n, rfl⟩, fun h => ?_⟩
    cases h
  · intro ids s e s' hrun hnd hw
    obtain ⟨-, -, hfuel⟩ := fetchByIdFrom_brought hh hnd
      (s := { s with requests := s.requests + 1 }) hw
    have hb := hone hnd hw
    rw [hrun] at hfuel hb
    refine ⟨hb, fun h => ?_, fun h => ?_⟩
    · cases h
    · cases h
      exact hfuel rfl
  · intro ids s s₁ e s₂ hrun hleft hnd hw
    have hb := hone hnd hw
    rw [hrun] at hb
    have hstep := (hleft (hnd.sublist (List.take_sublist _ _))).stop
      (ids.drop (ids.length / 2))
    rw [hhalves] at hstep
    obtain ⟨hb₂, hall, hfuel⟩ := hstep hb.within
    exact ⟨hb.trans hb₂, hall, hfuel⟩
  · intro ids s s₁ s₂ out hrun hleft hright hnd hw
    have hb := hone hnd hw
    rw [hrun] at hb
    have hstep := (hleft (hnd.sublist (List.take_sublist _ _))).append
      (hright (hnd.sublist (List.drop_sublist _ _)))
    rw [hhalves] at hstep
    obtain ⟨hb₂, hall, hfuel⟩ := hstep hb.within
    exact ⟨hb.trans hb₂, hall, hfuel⟩

theorem fetchIdsChunked_step (hh : Honest env world) {maxIds : Nat} (hmax : maxIds ≠ 0)
    (ids : List ObjectId) (hnd : ids.Nodup) (s : FillState) :
    FetchStep world ids s (fetchIdsChunked env maxIds ids s) := by
  have hcut : ∀ ids : List ObjectId, ids.take maxIds ++ ids.drop maxIds = ids :=
    fun ids => List.take_append_drop _ ids
  refine fetchIdsChunked_rule (R := fun ids s out => ids.Nodup → FetchStep world ids s out)
    hmax ?_ ?_ ?_ ids s hnd
  · intro s _ hw
    exact ⟨.refl hw, by simp, fun h => by cases h⟩
  · intro ids s e s₁ hrun hnd
    have hfirst := fetchIdsSplit_step hh (ids.take maxIds) (hnd.sublist (List.take_sublist _ _)) s
    rw [hrun] at hfirst
    have hstep := hfirst.stop (ids.drop maxIds)
    rwa [hcut] at hstep
  · intro ids s s₁ out hrun hrest hnd
    have hfirst := fetchIdsSplit_step hh (ids.take maxIds) (hnd.sublist (List.take_sublist _ _)) s
    rw [hrun] at hfirst
    have hstep := hfirst.append (hrest (hnd.sublist (List.drop_sublist _ _)))
    rwa [hcut] at hstep

/-- `ensure_many` makes every id present or fails, and adds only ids it was given. -/
theorem ensureMany_step (hh : Honest env world) (origin : Option String) (ids : BTreeSet ObjectId)
    (path : String) (tree : Bool) (s : FillState) :
    FetchStep world ids.toList s (ensureMany env origin ids path tree s) := by
  intro hw
  rcases ensureMany_cases env origin ids path tree s with ⟨hrun, hall⟩ | ⟨e, hrun⟩ | hrun
  · rw [hrun]
    exact ⟨.refl hw, fun _ id hid => hall id (Std.ExtTreeSet.mem_toList.mp hid),
      fun h => by cases h⟩
  · rw [hrun]
    refine ⟨.refl hw, fun h => ?_, fun h => ?_⟩ <;> cases h
  · rw [hrun]
    obtain ⟨hb, hall, hfuel⟩ := fetchIdsChunked_step hh
      (show MAX_GET_OBJECTS_IDS ≠ 0 by decide) (ids.toList.filter (fun id => !s.store.contains id))
      ((BTreeSet.nodup_toList ids).filter _) { s with opened := true } hw
    have hb' : Brought world (· ∈ ids.toList) s _ :=
      ⟨hb.within, hb.grows, fun id hid => (hb.asked id hid).imp (fun h => h)
        fun ⟨hin, hlog⟩ => ⟨List.mem_of_mem_filter hin, hlog⟩, hb.log⟩
    refine ⟨hb', fun hok id hid => ?_, hfuel⟩
    by_cases hheld : s.store.contains id = true
    · exact contains_of_extends hb.grows hheld
    · exact hall hok id (List.mem_filter.mpr ⟨hid, by simpa using hheld⟩)

end Exact

end SrcControl.Fill
