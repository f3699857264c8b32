import SrcControl.Repo.WireSession

/-!
# What a session cannot do

A read-only session leaves the repository alone and answers every request once or ends. A
session with a write budget never takes writes beyond it: each turn that takes one, or after
which the session goes on, leaves the counter within the budget.
-/

namespace SrcControl.Wire

variable {σ : Type} {t : ServeTransport σ} {policy : WirePolicy} {repo : σ} {used : Nat}
  {flow : Flow} {taken : Option Nat} {result : Except WireError Bytes} {max chunkSize : Nat}
  {src : Source}

/-! ## Responses -/

@[simp] theorem respond_repo : (respond t result taken repo used flow).repo = repo := by
  unfold respond
  split <;> rfl

@[simp] theorem respond_used : (respond t result taken repo used flow).used = used := by
  unfold respond
  split <;> rfl

@[simp] theorem respond_taken : (respond t result taken repo used flow).taken = taken := by
  unfold respond
  split <;> rfl

/-- One response goes out, or it fits no frame and the session ends. -/
theorem respond_spec (t : ServeTransport σ) (result : Except WireError Bytes) (taken : Option Nat)
    (repo : σ) (used : Nat) (flow : Flow) :
    ((respond t result taken repo used flow).replies = [.response (responseOf t result)] ∧
      (respond t result taken repo used flow).flow = flow) ∨
    ((respond t result taken repo used flow).replies = [] ∧
      ∃ e, (respond t result taken repo used flow).flow = .closed (.error e)) := by
  unfold respond
  split
  · exact .inl ⟨rfl, rfl⟩
  · exact .inr ⟨rfl, _, rfl⟩

/-- What answers a request: one response, and for a fetch that succeeds the pack behind it. -/
def Answers : Request → List Reply → Prop
  | .getPack .., replies => (∃ c m, replies = [.response (.err c m)]) ∨
      ∃ body pack, replies = [.response (.ok body), .stream pack]
  | .getObjects _, replies => (∃ c m, replies = [.response (.err c m)]) ∨
      ∃ body pack, replies = [.response (.ok body), .stream pack]
  | _, replies => ∃ r, replies = [.response r]

/-- A turn that goes on has answered; one that ends the session has answered, or met `Bye`,
or failed with at most one response written. -/
structure Settled (req : Request) (turn : Turn σ) : Prop where
  next : ∀ src, turn.flow = .next src → Answers req turn.replies
  closed : ∀ result, turn.flow = .closed result →
    req = .bye ∧ turn.replies = [] ∨ Answers req turn.replies ∨
      (∃ e, result = .error e) ∧ turn.replies.length ≤ 1

theorem Settled.answered {req : Request} {turn : Turn σ} (h : Answers req turn.replies) :
    Settled req turn := ⟨fun _ _ => h, fun _ _ => .inr (.inl h)⟩

theorem Settled.failed {req : Request} {turn : Turn σ} {e : WireError}
    (h : turn.flow = .closed (.error e)) (hlen : turn.replies.length ≤ 1) : Settled req turn where
  next src hsrc := by
    rw [h] at hsrc
    cases hsrc
  closed res hres := by
    rw [h] at hres
    cases hres
    exact .inr (.inr ⟨⟨e, rfl⟩, hlen⟩)

theorem settled_respond {req : Request} (h : Answers req [.response (responseOf t result)]) :
    Settled req (respond t result taken repo used flow) := by
  rcases respond_spec t result taken repo used flow with
    ⟨hreplies, -⟩ | ⟨hreplies, e, hflow⟩
  · exact .answered (hreplies ▸ h)
  · exact .failed hflow (by simp [hreplies])

/-- A turn that writes nothing to the repository and charges nothing. -/
structure Quiet (repo : σ) (used : Nat) (turn : Turn σ) : Prop where
  repo : turn.repo = repo
  used : turn.used = used
  taken : turn.taken = none

theorem quiet_respond : Quiet repo used (respond t result none repo used flow) :=
  ⟨respond_repo, respond_used, respond_taken⟩

theorem quiet_refuse {e : WireError} : Quiet repo used (refuse t e repo used) :=
  ⟨respond_repo, respond_used, respond_taken⟩

theorem quiet_respondPack {packed : Except WireError (Bytes × Bytes)} :
    Quiet repo used (respondPack t chunkSize packed repo used src) := by
  unfold respondPack
  split
  · exact quiet_respond
  · dsimp only
    split
    · exact quiet_respond
    · split
      · exact ⟨respond_repo, respond_used, respond_taken⟩
      · exact ⟨respond_repo, respond_used, respond_taken⟩

theorem settled_respondPack {packed : Except WireError (Bytes × Bytes)} {req : Request}
    (herr : ∀ c m, Answers req [.response (.err c m)])
    (hok : ∀ body pack, Answers req [.response (.ok body), .stream pack]) :
    Settled req (respondPack t chunkSize packed repo used src) := by
  unfold respondPack
  split
  · exact settled_respond (herr _ _)
  · next body pack =>
    dsimp only
    rcases respond_spec t (.ok body) none repo used (.next src) with
      ⟨hreplies, hflow⟩ | ⟨hreplies, e, hflow⟩
    · rw [hflow]
      dsimp only
      split
      · refine .answered ?_
        dsimp only
        rw [hreplies]
        exact hok body pack
      · exact .failed rfl (by simp [hreplies])
    · rw [hflow]
      exact .failed hflow (by simp [hreplies])

/-! ## Read-only sessions -/

/-- The refusal of a write fits a frame. -/
theorem refuse_readOnly :
    (refuse t .readOnly repo used).replies = [.response (responseOf t (.error .readOnly))] := by
  have hfits : frameBytes (responseOf t (.error .readOnly)).encode =
      .ok (Writer.u32 (responseOf t (.error .readOnly)).encode.length ++
        (responseOf t (.error .readOnly)).encode) := frameBytes_eq (by
    have hlen : (Writer.str "server is read-only").length = 23 := by decide
    simp only [responseOf, errToWire, Response.encode, List.length_cons, hlen]
    decide)
  simp only [refuse, respond, hfits]

theorem drainPutPack_readOnly : Quiet repo used (drainPutPack t policy max repo used src) ∧
    Settled .putPack (drainPutPack t policy max repo used src) := by
  unfold drainPutPack
  split
  · exact ⟨quiet_respond, settled_respond (by exact ⟨_, rfl⟩)⟩
  · exact ⟨quiet_refuse, .answered ⟨_, refuse_readOnly⟩⟩
  · exact ⟨⟨rfl, rfl, rfl⟩, .failed rfl (Nat.zero_le 1)⟩

theorem serveRequest_readOnly (t : ServeTransport σ) (max chunkSize : Nat) (repo : σ) (used : Nat)
    (src : Source) (hro : policy.readOnly = true) (req : Request) :
    Quiet repo used (serveRequest t policy max chunkSize repo used src req) ∧
      Settled req (serveRequest t policy max chunkSize repo used src req) := by
  cases req with
  | bye =>
    refine ⟨⟨rfl, rfl, rfl⟩, fun src hsrc => ?_, fun _ _ => .inl ⟨rfl, rfl⟩⟩
    cases hsrc
  | getPack wants haves filter blobLimit =>
    exact ⟨quiet_respondPack, settled_respondPack (fun c m => .inl ⟨c, m, rfl⟩)
      fun body pack => .inr ⟨body, pack, rfl⟩⟩
  | getObjects ids =>
    exact ⟨quiet_respondPack, settled_respondPack (fun c m => .inl ⟨c, m, rfl⟩)
      fun body pack => .inr ⟨body, pack, rfl⟩⟩
  | putPack =>
    rw [serveRequest, if_pos hro]
    exact drainPutPack_readOnly
  | putObject id bytes =>
    rw [serveRequest, if_pos hro]
    exact ⟨quiet_respond, settled_respond (by exact ⟨_, rfl⟩)⟩
  | updateRef branch id expectedOld =>
    rw [serveRequest, if_pos hro]
    exact ⟨quiet_respond, settled_respond (by exact ⟨_, rfl⟩)⟩
  | hello version =>
    unfold serveRequest
    exact ⟨quiet_respond, settled_respond (by exact ⟨_, rfl⟩)⟩
  | listRefs => exact ⟨quiet_respond, settled_respond (by exact ⟨_, rfl⟩)⟩
  | headBranch => exact ⟨quiet_respond, settled_respond (by exact ⟨_, rfl⟩)⟩
  | hasObject id => exact ⟨quiet_respond, settled_respond (by exact ⟨_, rfl⟩)⟩
  | getObject id => exact ⟨quiet_respond, settled_respond (by exact ⟨_, rfl⟩)⟩

/-- One exchange of a session that may not write. -/
structure ReadOnly (repo : σ) (e : Exchange σ) : Prop where
  untouched : e.turn.repo = repo ∧ e.turn.taken = none
  malformed : e.request = none → ∃ result, e.turn.flow = .closed result ∧
    ((∃ c m, e.turn.replies = [.response (.err c m)]) ∨ ∃ err, result = .error err)
  settled : ∀ req, e.request = some req → Settled req e.turn

/-- Only the last turn ends the session. -/
def ClosesLast (es : List (Exchange σ)) : Prop :=
  ∀ e ∈ es.dropLast, ∃ src, e.turn.flow = .next src

theorem closesLast_cons {e : Exchange σ} {es : List (Exchange σ)} {s : Source}
    (h : e.turn.flow = .next s) (hes : ClosesLast es) : ClosesLast (e :: es) := by
  intro e' he'
  cases es with
  | nil => cases he'
  | cons x xs =>
    rcases List.mem_cons.mp he' with rfl | he'
    · exact ⟨s, h⟩
    · exact hes e' he'

theorem serveLoop_readOnly (hro : policy.readOnly = true) (fuel : Nat) :
    (∀ e ∈ (serveLoop t policy max chunkSize fuel repo used src).1, ReadOnly repo e) ∧
      ClosesLast (serveLoop t policy max chunkSize fuel repo used src).1 := by
  induction fuel generalizing used src with
  | zero => exact ⟨by simp [serveLoop], by simp [serveLoop, ClosesLast]⟩
  | succ fuel ih =>
    unfold serveLoop
    split
    · exact ⟨by simp, by simp [ClosesLast]⟩
    · exact ⟨by simp, by simp [ClosesLast]⟩
    · next frame src' hread =>
      split
      · next err hdecode =>
        refine ⟨fun e he => ?_, by simp [ClosesLast]⟩
        obtain rfl := List.mem_singleton.mp he
        refine ⟨⟨respond_repo, respond_taken⟩, fun _ => ?_, fun req hreq => (by cases hreq)⟩
        rcases respond_spec t (.error err) none repo used (.closed (.ok ())) with
          ⟨hreplies, hflow⟩ | ⟨-, e, hflow⟩
        · exact ⟨_, hflow, .inl ⟨_, _, hreplies⟩⟩
        · exact ⟨_, hflow, .inr ⟨e, rfl⟩⟩
      · next req hdecode =>
        obtain ⟨hquiet, hsettled⟩ := serveRequest_readOnly t max chunkSize repo used
          src' hro req
        have hthis : ReadOnly repo (⟨some req, (repo, used),
            serveRequest t policy max chunkSize repo used src' req⟩ : Exchange σ) := by
          refine ⟨⟨hquiet.repo, hquiet.taken⟩, fun hnone => (by cases hnone), fun r hr => ?_⟩
          cases hr
          exact hsettled
        dsimp only
        split
        · refine ⟨fun e he => ?_, by simp [ClosesLast]⟩
          rw [List.mem_singleton.mp he]
          exact hthis
        · next src'' hflow =>
          rw [hquiet.repo]
          obtain ⟨hall, hlast⟩ := @ih (serveRequest t policy max chunkSize repo used src' req).used
            src''
          refine ⟨fun e he => ?_, closesLast_cons hflow hlast⟩
          rcases List.mem_cons.mp he with rfl | he
          · exact hthis
          · exact hall e he

/-! ## Sessions with a write budget -/

/-- What a turn does to the counter: it never falls, and it is within the budget when the
session goes on or a write was taken. A write that was taken is charged its own bytes. -/
structure Charged (limit used : Nat) (turn : Turn σ) : Prop where
  grows : used ≤ turn.used
  within : (∃ src, turn.flow = .next src) ∨ turn.taken.isSome = true → turn.used ≤ limit
  cost : ∀ n, turn.taken = some n → turn.used = saturatingAdd used n

theorem saturatingAdd_ge {a b : Nat} (ha : a ≤ U64_MAX) : a ≤ saturatingAdd a b :=
  Nat.le_min.mpr ⟨Nat.le_add_right a b, ha⟩

theorem limit_le (policy : WirePolicy) : policy.maxConnBytes.toNat ≤ U64_MAX :=
  Nat.le_pred_of_lt policy.maxConnBytes.toNat_lt

theorem Quiet.charged {limit : Nat} (hused : used ≤ limit) {turn : Turn σ}
    (h : Quiet repo used turn) : Charged limit used turn where
  grows := h.used.ge
  within _ := h.used.le.trans hused
  cost n hn := by
    rw [h.taken] at hn
    cases hn

/-- A refusal ends the session and takes nothing. -/
theorem charged_refuse {limit spent : Nat} {e : WireError} (h : used ≤ spent) :
    Charged limit used (refuse t e repo spent) where
  grows := h.trans_eq respond_used.symm
  within hor := by
    rcases hor with ⟨src, hsrc⟩ | htaken
    · cases hsrc
    · rw [show (refuse t e repo spent).taken = none from respond_taken] at htaken
      cases htaken
  cost n hn := by
    rw [show (refuse t e repo spent).taken = none from respond_taken] at hn
    cases hn

theorem charged_respond {limit spent : Nat} (hgrows : used ≤ spent) (hspent : spent ≤ limit)
    (hcost : ∀ n, taken = some n → spent = saturatingAdd used n) :
    Charged limit used (respond t result taken repo spent flow) where
  grows := hgrows.trans_eq respond_used.symm
  within _ := respond_used.trans_le hspent
  cost n hn := by
    rw [respond_taken] at hn
    rw [respond_used]
    exact hcost n hn

theorem charged_putObject {id : ObjectId} {bytes : Bytes} (hlimit : policy.maxConnBytes.toNat ≠ 0)
    (hused : used ≤ policy.maxConnBytes.toNat) :
    Charged policy.maxConnBytes.toNat used
      (servePutObject t policy max id bytes repo used src) := by
  have hgrows : used ≤ saturatingAdd used bytes.length :=
    saturatingAdd_ge (hused.trans (limit_le policy))
  unfold servePutObject
  dsimp only
  split
  · exact charged_refuse hgrows
  · next hcharge =>
    have hwithin : saturatingAdd used bytes.length ≤ policy.maxConnBytes.toNat := by
      unfold ConnBudget.charge at hcharge
      split_ifs at hcharge with hover
      exact Nat.not_lt.mp fun hlt => hover ⟨hlimit, hlt⟩
    split
    · exact charged_respond hgrows hwithin (by simp)
    · split
      · refine charged_respond hgrows hwithin fun n hn => ?_
        cases hn
        rfl
      · exact charged_respond hgrows hwithin (by simp)

/-- A tally that refused nothing is within its limit. -/
theorem ingestTallied_within (t : ServeTransport σ) (tally : PackTally) (pack : Bytes) (repo : σ)
    {l : Nat} (hl : tally.limit = some l) :
    (ingestTallied t tally pack repo).1.seen ≤ l ∨
      ∃ m, (ingestTallied t tally pack repo).2.1 = .error (.connectionBudgetExceeded m) := by
  have hkeep : ∀ (os : List Object) (tally : PackTally), (tally.scan os).limit = tally.limit := by
    intro os
    induction os with
    | nil => exact fun _ => rfl
    | cons o os ih =>
      intro tally
      have hadd : (tally.add o).limit = tally.limit := by
        unfold PackTally.add
        split_ifs <;> rfl
      unfold PackTally.scan
      split_ifs
      · exact hadd
      · rw [ih, hadd]
  unfold ingestTallied
  dsimp only
  split_ifs with hover
  · exact .inr ⟨"", rfl⟩
  · refine .inl ?_
    have hseen : (tally.scan (t.parsePack pack).1).seen ≤ l := by
      rw [PackTally.exceeded, hkeep, hl] at hover
      simpa using hover
    split
    · exact hseen
    · exact hseen

theorem charged_putPack (hlimit : policy.maxConnBytes.toNat ≠ 0)
    (hused : used ≤ policy.maxConnBytes.toNat) :
    Charged policy.maxConnBytes.toNat used (servePutPack t policy max repo used src) := by
  have hgrows : ∀ n, used ≤ saturatingAdd used n :=
    fun n => saturatingAdd_ge (hused.trans (limit_le policy))
  unfold servePutPack
  dsimp only
  split
  · next pack spooled src' hspill =>
    split_ifs with hover
    · exact charged_refuse le_rfl
    · have hspool : spooled ≤ policy.maxConnBytes.toNat - used :=
        Nat.not_lt.mp fun hlt => hover ⟨hlimit, hlt⟩
      have htally := ingestTallied_within t
        ⟨some (policy.maxConnBytes.toNat - used), t.bucket, 0⟩ pack repo rfl
      generalize ingestTallied t ⟨some (policy.maxConnBytes.toNat - used), t.bucket, 0⟩ pack repo =
        out at htally ⊢
      obtain ⟨tally, res, repo'⟩ := out
      dsimp only at htally ⊢
      have hwithin : (∀ m, res ≠ .error (.connectionBudgetExceeded m)) →
          saturatingAdd used (Nat.max spooled tally.seen) ≤ policy.maxConnBytes.toNat := by
        intro hne
        have hseen : tally.seen ≤ policy.maxConnBytes.toNat - used :=
          htally.resolve_right fun ⟨m, hm⟩ => hne m hm
        have hcost : Nat.max spooled tally.seen ≤ policy.maxConnBytes.toNat - used :=
          Nat.max_le.mpr ⟨hspool, hseen⟩
        have hsum : used + Nat.max spooled tally.seen ≤ policy.maxConnBytes.toNat := by omega
        exact (Nat.min_le_left _ _).trans hsum
      split
      · refine charged_respond (hgrows _) (hwithin (by simp)) fun n hn => ?_
        cases hn
        rfl
      · exact charged_refuse (hgrows _)
      · next e hne =>
        refine charged_respond (hgrows _) (hwithin fun m hm => ?_) (by simp)
        exact hne m (Except.error.inj hm)
  · exact charged_refuse le_rfl

theorem serveRequest_charged (t : ServeTransport σ) (max chunkSize : Nat) (repo : σ) (src : Source)
    (hro : policy.readOnly = false) (hlimit : policy.maxConnBytes.toNat ≠ 0)
    (hused : used ≤ policy.maxConnBytes.toNat) (req : Request) :
    Charged policy.maxConnBytes.toNat used
      (serveRequest t policy max chunkSize repo used src req) := by
  have hwrite : ¬ policy.readOnly = true := by simp [hro]
  cases req with
  | bye =>
    have hquiet : Quiet repo used (serveRequest t policy max chunkSize repo used src .bye) :=
      ⟨rfl, rfl, rfl⟩
    exact hquiet.charged hused
  | getPack wants haves filter blobLimit => exact quiet_respondPack.charged hused
  | getObjects ids => exact quiet_respondPack.charged hused
  | putPack =>
    rw [serveRequest, if_neg hwrite]
    exact charged_putPack hlimit hused
  | putObject id bytes =>
    rw [serveRequest, if_neg hwrite]
    exact charged_putObject hlimit hused
  | updateRef branch id expectedOld =>
    rw [serveRequest, if_neg hwrite]
    exact charged_respond le_rfl hused (by simp)
  | hello version =>
    unfold serveRequest
    exact quiet_respond.charged hused
  | listRefs => exact quiet_respond.charged hused
  | headBranch => exact quiet_respond.charged hused
  | hasObject id => exact quiet_respond.charged hused
  | getObject id => exact quiet_respond.charged hused

/-- The budget charged for a write the repository took. -/
def Exchange.charged (e : Exchange σ) : Nat :=
  if e.turn.taken.isSome then e.turn.used - e.before.2 else 0

/-- Along the session the charges stay within what was left of the budget, and each charge
is the write's own bytes unless the counter is full. -/
theorem serveLoop_charged (t : ServeTransport σ) (max chunkSize : Nat) (repo : σ) (src : Source)
    (hro : policy.readOnly = false) (hlimit : policy.maxConnBytes.toNat ≠ 0)
    (hused : used ≤ policy.maxConnBytes.toNat) (fuel : Nat) :
    ((serveLoop t policy max chunkSize fuel repo used src).1.map Exchange.charged).sum + used ≤
        policy.maxConnBytes.toNat ∧
      ∀ e ∈ (serveLoop t policy max chunkSize fuel repo used src).1, ∀ n, e.turn.taken = some n →
        policy.maxConnBytes.toNat < U64_MAX → e.charged = n := by
  induction fuel generalizing repo used src with
  | zero => exact ⟨by simpa [serveLoop] using hused, by simp [serveLoop]⟩
  | succ fuel ih =>
    unfold serveLoop
    split
    · exact ⟨by simpa using hused, by simp⟩
    · exact ⟨by simpa using hused, by simp⟩
    · next frame src' hread =>
      split
      · next err hdecode =>
        have hnone : (respond t (.error err) none repo used (.closed (.ok ()))).taken = none :=
          respond_taken
        constructor
        · simpa [Exchange.charged] using hused
        · intro e he n hn
          obtain rfl := List.mem_singleton.mp he
          rw [hnone] at hn
          cases hn
      · next req hdecode =>
        have hturn := serveRequest_charged t max chunkSize repo src' hro hlimit hused req
        generalize serveRequest t policy max chunkSize repo used src' req = turn at hturn ⊢
        have hone : (⟨some req, (repo, used), turn⟩ : Exchange σ).charged + used ≤
            policy.maxConnBytes.toNat := by
          unfold Exchange.charged
          split_ifs with htaken
          · have := hturn.within (.inr htaken)
            have := hturn.grows
            dsimp only
            omega
          · omega
        have hcost : ∀ n, turn.taken = some n → policy.maxConnBytes.toNat < U64_MAX →
            (⟨some req, (repo, used), turn⟩ : Exchange σ).charged = n := by
          intro n hn hlt
          have hsat := hturn.cost n hn
          have hwithin := hturn.within (.inr (by rw [hn]; rfl))
          simp only [Exchange.charged, hn, Option.isSome_some, if_true]
          unfold saturatingAdd at hsat
          omega
        dsimp only
        split
        · refine ⟨by simpa using hone, fun e he n hn hlt => ?_⟩
          obtain rfl := List.mem_singleton.mp he
          exact hcost n hn hlt
        · next src'' hflow =>
          have hgo : turn.used ≤ policy.maxConnBytes.toNat := hturn.within (.inl ⟨src'', hflow⟩)
          obtain ⟨hsum, hall⟩ := ih turn.repo src'' hgo
          constructor
          · have hthis : (⟨some req, (repo, used), turn⟩ : Exchange σ).charged + used ≤
                turn.used := by
              unfold Exchange.charged
              have := hturn.grows
              split_ifs
              · dsimp only
                omega
              · omega
            rw [List.map_cons, List.sum_cons]
            omega
          · intro e he n hn hlt
            rcases List.mem_cons.mp he with rfl | he
            · exact hcost n hn hlt
            · exact hall e he n hn hlt

/-! ## Rounds -/

theorem readFrame_shrinks {s s' : Source} {f : Option Bytes} (h : readFrame max s = .ok (f, s')) :
    s'.data.length ≤ s.data.length ∧ (f.isSome = true → s'.data.length < s.data.length) := by
  obtain ⟨hheader, hbehind⟩ := readUpTo_eq 4 s
  unfold readFrame at h
  dsimp only at h
  split_ifs at h with hnil hshort hlong hbody
  · cases h
    rw [hbehind]
    exact ⟨by simp, by simp⟩
  · cases h
    obtain ⟨-, hleft⟩ := readLimited_eq (ByteReader.ofBe (readUpTo 4 s).1) (readUpTo 4 s).2
    rw [hheader] at hshort
    rw [hleft, hbehind]
    simp only [List.length_take, List.length_drop] at hshort ⊢
    omega

theorem readChunks_shrinks {maxBytes fuel : Nat} {sink : Bytes} {s s' : Source} {out : Bytes × Nat}
    (h : readChunks max maxBytes fuel sink s = .ok (out, s')) :
    s'.data.length ≤ s.data.length := by
  induction fuel generalizing sink s with
  | zero => cases h
  | succ fuel ih =>
    unfold readChunks at h
    obtain ⟨⟨f, s₁⟩, hread, h⟩ := Fallible.bind_ok h
    have hle := (readFrame_shrinks hread).1
    dsimp only at h
    split at h
    · cases h
    · cases h
    · split_ifs at h
      · exact (ih h).trans hle
      · cases h
        exact hle

/-- A turn after which the session goes on has read only forward. -/
def Forward (src : Source) (turn : Turn σ) : Prop :=
  ∀ s, turn.flow = .next s → s.data.length ≤ src.data.length

theorem forward_respond {s : Source} (h : s.data.length ≤ src.data.length) :
    Forward src (respond t result taken repo used (.next s)) := by
  intro s' hs'
  rcases respond_spec t result taken repo used (.next s) with ⟨-, hflow⟩ | ⟨-, e, hflow⟩
  · rw [hflow] at hs'
    cases hs'
    exact h
  · rw [hflow] at hs'
    cases hs'

theorem forward_closed {turn : Turn σ} {r : Except WireError Unit} (h : turn.flow = .closed r) :
    Forward src turn := by
  intro s hs
  rw [h] at hs
  cases hs

theorem forward_respondPack {packed : Except WireError (Bytes × Bytes)} :
    Forward src (respondPack t chunkSize packed repo used src) := by
  unfold respondPack
  split
  · exact forward_respond le_rfl
  · dsimp only
    split
    · next hflow => exact forward_closed hflow
    · split
      · exact forward_respond le_rfl
      · exact forward_closed rfl

theorem spillPackStream_shrinks {maxBytes : Nat} {out : Bytes × Nat} {s : Source}
    (h : spillPackStream t max maxBytes src = .ok (out, s)) : s.data.length ≤ src.data.length := by
  obtain ⟨_, -, h⟩ := Fallible.bind_ok h
  exact readChunks_shrinks h

theorem forward_drainPutPack : Forward src (drainPutPack t policy max repo used src) := by
  unfold drainPutPack
  split
  · next hspill => exact forward_respond (spillPackStream_shrinks hspill)
  · exact forward_closed rfl
  · exact forward_closed rfl

theorem forward_putPack : Forward src (servePutPack t policy max repo used src) := by
  unfold servePutPack
  dsimp only
  split
  · next hspill =>
    have hle := spillPackStream_shrinks hspill
    split_ifs
    · exact forward_closed rfl
    all_goals
      split
      · exact forward_respond hle
      · exact forward_closed rfl
      · exact forward_respond hle
  · exact forward_closed rfl

theorem forward_putObject {id : ObjectId} {bytes : Bytes} :
    Forward src (servePutObject t policy max id bytes repo used src) := by
  unfold servePutObject
  dsimp only
  split
  · exact forward_closed rfl
  · split
    · exact forward_respond le_rfl
    · split
      · exact forward_respond le_rfl
      · exact forward_respond le_rfl

theorem serveRequest_forward (t : ServeTransport σ) (policy : WirePolicy) (max chunkSize : Nat)
    (repo : σ) (used : Nat) (src : Source) (req : Request) :
    Forward src (serveRequest t policy max chunkSize repo used src req) := by
  cases req with
  | bye => exact forward_closed rfl
  | getPack wants haves filter blobLimit => exact forward_respondPack
  | getObjects ids => exact forward_respondPack
  | putPack =>
    rw [serveRequest]
    split_ifs
    · exact forward_drainPutPack
    · exact forward_putPack
  | putObject id bytes =>
    rw [serveRequest]
    split_ifs
    · exact forward_respond le_rfl
    · exact forward_putObject
  | updateRef branch id expectedOld =>
    rw [serveRequest]
    split_ifs
    · exact forward_respond le_rfl
    · exact forward_respond le_rfl
  | hello version =>
    unfold serveRequest
    exact forward_respond le_rfl
  | listRefs => exact forward_respond le_rfl
  | headBranch => exact forward_respond le_rfl
  | hasObject id => exact forward_respond le_rfl
  | getObject id => exact forward_respond le_rfl

/-- More rounds than there are bytes change nothing: the session never runs out of them. -/
theorem serveLoop_rounds (t : ServeTransport σ) (policy : WirePolicy) (max chunkSize : Nat)
    {fuel fuel' : Nat} (repo : σ) (used : Nat) {src : Source} (h : src.data.length < fuel)
    (h' : src.data.length < fuel') :
    serveLoop t policy max chunkSize fuel repo used src =
      serveLoop t policy max chunkSize fuel' repo used src := by
  induction fuel generalizing fuel' repo used src with
  | zero => exact absurd h (Nat.not_lt_zero _)
  | succ fuel ih =>
    cases fuel' with
    | zero => exact absurd h' (Nat.not_lt_zero _)
    | succ fuel' =>
      unfold serveLoop
      split
      · rfl
      · rfl
      · next frame src' hread =>
        have hlt : src'.data.length < src.data.length := (readFrame_shrinks hread).2 rfl
        split
        · rfl
        · next req hdecode =>
          have hforward := serveRequest_forward t policy max chunkSize repo used src' req
          dsimp only
          split
          · rfl
          · next src'' hflow =>
            have hle := hforward src'' hflow
            rw [ih _ _ (by omega) (by omega : src''.data.length < fuel')]

/-! ## The session -/

/-- A session that may not write: no repository state but the first is ever seen, every
turn that goes on has answered its request once, and only the last turn may end the
session. -/
structure ReadOnlySession (repo : σ) (run : List (Exchange σ) × Except WireError Unit) : Prop where
  exchanges : ∀ e ∈ run.1, ReadOnly repo e
  closesLast : ClosesLast run.1

/-- A session with a write budget: what is charged for the writes taken stays within it,
and unless the budget is as large as the counter those are the writes' own bytes. -/
structure WithinBudget (budget : Nat) (run : List (Exchange σ) × Except WireError Unit) :
    Prop where
  charged : (run.1.map Exchange.charged).sum ≤ budget
  taken : budget < U64_MAX → (run.1.map (fun e => e.turn.taken.getD 0)).sum ≤ budget

/-- Every session on every bytes a peer sends: without the right to write it changes nothing
and stays in step, with a budget it takes no more than that, and it comes to an end. -/
theorem session_safe (t : ServeTransport σ) (policy : WirePolicy) (max chunkSize : Nat) (repo : σ)
    (src : Source) :
    (policy.readOnly = true →
      ReadOnlySession repo (serveSession t policy max chunkSize repo src)) ∧
    (policy.readOnly = false → policy.maxConnBytes ≠ 0 →
      WithinBudget policy.maxConnBytes.toNat (serveSession t policy max chunkSize repo src)) ∧
    ∀ fuel, src.data.length < fuel →
      serveLoop t policy max chunkSize fuel repo 0 src =
        serveSession t policy max chunkSize repo src := by
  refine ⟨fun hro => ?_, fun hro hlimit => ?_, fun fuel h => ?_⟩
  · obtain ⟨hall, hlast⟩ := serveLoop_readOnly (t := t) hro _
    exact ⟨hall, hlast⟩
  · have hpos : policy.maxConnBytes.toNat ≠ 0 := fun hz => hlimit (UInt64.toNat_inj.mp hz)
    obtain ⟨hsum, hcost⟩ := serveLoop_charged t max chunkSize repo src hro hpos
      (Nat.zero_le _) (src.data.length + 1)
    rw [Nat.add_zero] at hsum
    refine ⟨hsum, fun hlt => ?_⟩
    have hle : ((serveSession t policy max chunkSize repo src).1.map
        (fun e => e.turn.taken.getD 0)).sum ≤
        ((serveSession t policy max chunkSize repo src).1.map Exchange.charged).sum := by
      refine List.sum_le_sum fun e he => ?_
      cases htaken : e.turn.taken with
      | none => exact Nat.zero_le _
      | some n => exact (hcost e he n htaken hlt).ge
    exact hle.trans hsum
  · exact serveLoop_rounds t policy max chunkSize repo 0 h (Nat.lt_succ_self _)

end SrcControl.Wire
