import SrcControl.Repo.BucketClients

/-!
# One operation of a client

Every operation of a call, whether it is answered or not and whether it has its effect or not,
leaves the log standing and the claims of its client true; and a call takes effect when it reads
the manifest, or when it swaps it.
-/

namespace SrcControl.BucketTransport

open Checked (Stop)
open Linearizability (Event Entry)
open Objio (Path Fetched mapApply)
open WalFormat (Manifest RefUpdate LogEntry Checkpoint MAX_LIST MAX_NAME MAX_HASH FitsString
  FitsRef)

variable {Tag : Type} {tagOf : Bytes → Tag} {b b' : Path → Option Bytes}
  {log pre : List LogEntry} {L : Entries} {id : Nat} {op : Op} {t : Transport Tag}

/-! ## What the records can hold -/

theorem refsOf_fits (h : Chained log) : ∀ r ∈ (refsOf log).toList, FitsRef r := by
  have hmap : ∀ branch tip, (refsOf log)[branch]? = some tip → FitsRef (branch, tip) := by
    induction h with
    | nil =>
      intro branch tip hr
      cases hr
    | @snoc log e h hparent hlt hfits hmoves ih =>
      rw [refsOf_snoc]
      have hupdates := hfits.updates.2
      generalize refsOf log = refs at ih
      revert refs
      generalize e.updates = us at hupdates
      induction us with
      | nil => exact fun refs ih => ih
      | cons u us ihus =>
        intro refs ih
        refine ihus (fun x hx => hupdates x (List.mem_cons_of_mem _ hx)) _ ?_
        intro branch tip hr
        rw [BTreeMap.getElem?_insert] at hr
        split_ifs at hr with heq
        · subst heq
          cases hr
          exact ⟨(hupdates u List.mem_cons_self).branch, (hupdates u List.mem_cons_self).new⟩
        · exact ih branch tip hr
  rintro ⟨branch, tip⟩ hr
  exact hmap branch tip ((BTreeMap.mem_toList_iff _ _ _).mp hr)

theorem packsOf_fits (h : Chained log) : ∀ p ∈ packsOf log, FitsString MAX_HASH p := by
  induction h with
  | nil => exact fun p hp => absurd hp List.not_mem_nil
  | snoc h hparent hlt hfits hmoves ih =>
    intro p hp
    rcases mem_packsOf_snoc.mp hp with hp | hp
    · exact ih p hp
    · exact hfits.packs.2 p hp

/-! ## Where a call goes on -/

theorem claimAfter_at {pending : List String} {a : Attempt Tag} {seq : UInt64}
    (h : AttemptAt tagOf b log L id op pre a) (hle : headOf pre ≤ seq) :
    PcAt tagOf b log L id op pending (Pc.claimAfter a seq) := by
  unfold Pc.claimAfter
  split_ifs with hroom
  · refine ⟨pre, h, ?_⟩
    rw [UInt64.le_iff_toNat_le] at hle
    rw [UInt64.lt_iff_toNat_lt, UInt64.toNat_add]
    have hone : (1 : UInt64).toNat = 1 := rfl
    rw [hone, Nat.mod_eq_of_lt hroom]
    omega
  · trivial

theorem ensurePresent_at {pending : List String} {a : Attempt Tag} {seq : UInt64}
    {rest : List String} (h : ClaimedAt tagOf b log L id op pre a seq)
    (hpacks : ∀ p ∈ a.entry.packs, p ∈ rest ∨ (b (idxKey p)).isSome) :
    PcAt tagOf b log L id op pending (Pc.ensurePresent a seq rest) := by
  cases rest with
  | nil => exact ⟨pre, h, fun p hp => (hpacks p hp).resolve_left List.not_mem_nil⟩
  | cons hash rest => exact ⟨pre, h, hpacks⟩

theorem attempt_at {pending packs : List String} (hu : Unborn L id) (hs : Sends op packs)
    (n : Nat) :
    PcAt tagOf b log L id op pending (Pc.attempt n packs) := by
  unfold Pc.attempt
  split_ifs
  · exact .inl ⟨rfl, hs, hu⟩
  · exact hu

/-- A round with a fresh view, before its slot. -/
theorem decide_at {view : Option (WalView Tag)} {pending packs : List String} {n : Nat}
    {branch : String} {tip : ObjectId} {expectedOld : Option ObjectId} (hb : Stands b log)
    (hpre : pre <+: log) (hview : ViewAt tagOf b pre view)
    (hsends : Sends (.updateRef branch tip expectedOld) packs)
    (hsettled : Settled L id (.updateRef branch tip expectedOld) (refsOf pre)) :
    PcAt tagOf b log L id (.updateRef branch tip expectedOld) pending
      (Pc.decide view n packs branch tip expectedOld) := by
  obtain ⟨branch', tip', expectedOld', hop, hbranch, htip, hpacks⟩ := hsends
  obtain ⟨rfl, rfl, rfl⟩ := Op.updateRef.inj hop
  have hcurrent : view.bind (fun v => v.refs[branch]?) = (refsOf pre)[branch]? := by
    cases view with
    | none =>
      obtain rfl : pre = [] := hview
      rfl
    | some v => rw [Option.bind_some, hview.2.refs]
  have hhead : (view.map (·.manifest.headSeq)).getD 0 = headOf pre := by
    cases view with
    | none =>
      obtain rfl : pre = [] := hview
      rfl
    | some v => exact hview.2.manifests.head
  unfold Pc.decide
  simp only [hcurrent, hhead]
  split_ifs with hthere hold
  · exact hsettled.known (.ok .updated) (by rw [decided, if_pos hthere])
  · exact hsettled.known (.error .nonFastForward) (by rw [decided, if_neg hthere, if_pos hold])
  · have hopen : decided (refsOf pre) (.updateRef branch tip expectedOld) = none := by
      rw [decided, if_neg hthere, if_neg hold]
    rw [ne_eq, not_not] at hold
    have hfitsOld : ∀ old, (refsOf pre)[branch]? = some old → FitsId old := fun old hold' =>
      (refsOf_fits (hb.chained.of_prefix hpre) (branch, old)
        ((BTreeMap.mem_toList_iff _ _ _).mpr hold')).2
    have hfits : (⟨0, headOf pre, packs, [⟨branch, (refsOf pre)[branch]?, tip⟩]⟩ :
        LogEntry).Fits := by
      refine ⟨hpacks, by simp [MAX_LIST], fun u hu => ?_⟩
      rw [List.mem_singleton.mp hu]
      exact ⟨hbranch, hfitsOld, htip⟩
    refine claimAfter_at (?_ : AttemptAt tagOf b log L id _ pre _) (UInt64.le_refl _)
    refine ⟨hpre, hsettled.unborn hopen, ⟨branch, tip, ?_, hthere, rfl⟩, hfits, ?_, ?_⟩
    · rw [hold]
    · cases view with
      | none =>
        obtain rfl : pre = [] := hview
        exact ⟨⟨hbranch⟩, rfl, [], List.prefix_refl _, rfl, fun hne => absurd rfl hne⟩
      | some v =>
        exact hview.2.manifests.extend (List.prefix_refl pre) hview.2.manifests.fits.headBranch
    · cases view with
      | none => exact .inl ⟨hview, rfl⟩
      | some v =>
        refine .inr ⟨hview.1, congrArg some (hview.2.tag.trans ?_)⟩
        rw [← hview.2.manifests.head]
        rfl

theorem maybeFold_at {view : Option (WalView Tag)} {pending : List String} (hb : Stands b log)
    (hpre : pre <+: log) (hview : ViewAt tagOf b pre view) (hin : ⟨id, op, .ok .updated⟩ ∈ L) :
    PcAt tagOf b log L id op pending (Pc.maybeFold view) := by
  cases view with
  | none => exact hin
  | some v =>
    obtain ⟨hne, hshows⟩ := hview
    have hchain := hb.chained.of_prefix hpre
    unfold Pc.maybeFold
    simp only
    split_ifs with hunder hfew hmany
    · trivial
    · exact hin
    · exact hin
    · simp only [foldWouldOverflow, Bool.or_eq_true, decide_eq_true_eq, not_or, Nat.not_lt] at hmany
      have hpacks : ∀ p, p ∈ v.packs.eraseDups ↔ p ∈ packsOf pre := fun p => by
        rw [List.mem_eraseDups, hshows.packs]
      refine ⟨hin, pre, ⟨hpre, hne, hshows.manifests.head, hshows.manifests.head,
        ⟨hshows.manifests.fits.headBranch⟩, v.manifest, hshows.manifests, hshows.tag⟩,
        ⟨⟨⟨hmany.1, ?_⟩, hmany.2, ?_⟩, hshows.manifests.head, ?_, hpacks⟩⟩
      · rw [hshows.refs]
        exact refsOf_fits hchain
      · exact fun p hp => packsOf_fits hchain p ((hpacks p).mp hp)
      · rw [hshows.refs]

/-- A call behind its `refresh`. -/
theorem refreshed_at {view : Option (WalView Tag)} {pending : List String} {next : Next}
    (hb : Stands b log) (hpre : pre <+: log) (hview : ViewAt tagOf b pre view)
    (h : After L id op (refsOf pre) next) :
    PcAt tagOf b log L id op pending (Pc.refreshed view op next) := by
  cases next with
  | attempt n packs =>
    obtain ⟨hsends, hsettled⟩ := h
    obtain ⟨branch, tip, expectedOld, rfl, hrest⟩ := hsends
    exact decide_at hb hpre hview ⟨branch, tip, expectedOld, rfl, hrest⟩ hsettled
  | committed => exact maybeFold_at hb hpre hview h
  | folded => exact h
  | listed =>
    obtain ⟨rfl, hsettled⟩ := h
    have hrefs : (view.map (·.refs.toList)).getD [] = (refsOf pre).toList := by
      cases view with
      | none =>
        obtain rfl : pre = [] := hview
        rfl
      | some v =>
        rw [Option.map_some, Option.getD_some, hview.2.refs]
    change ResAt L id .listRefs (.ok (.refs _))
    rw [hrefs]
    exact hsettled.known _ rfl

theorem refreshFailed_at {e : Failure} {pending : List String} {next : Next}
    (h : next = .folded → ⟨id, op, .ok .updated⟩ ∈ L) :
    PcAt tagOf b log L id op pending (Pc.refreshFailed e next) := by
  cases next with
  | folded => exact h rfl
  | _ => trivial

theorem TransportAt.take (h : TransportAt tagOf b log t) :
    TransportAt tagOf b log { t with pendingPacks := [] } :=
  ⟨h.view, fun _ hp => absurd hp List.not_mem_nil⟩

theorem TransportAt.push {hash : String} (h : TransportAt tagOf b log t)
    (hfits : FitsString MAX_HASH hash) :
    TransportAt tagOf b log { t with pendingPacks := t.pendingPacks ++ [hash] } := by
  refine ⟨h.view, fun p hp => ?_⟩
  rcases List.mem_append.mp hp with hp | hp
  · exact h.pending p hp
  · rwa [List.mem_singleton.mp hp]

/-! ## One operation -/

/-- An operation that leaves `log'` and the list `L'` of the calls that have taken effect. -/
structure Stepped (tagOf : Bytes → Tag) (b : Path → Option Bytes) (log : List LogEntry)
    (L : Entries) (id : Nat) (op : Op) (b' : Path → Option Bytes) (t' : Transport Tag)
    (pc' : Pc Tag) (log' : List LogEntry) (L' : Entries) : Prop where
  stands : Stands b' log'
  keeps : Keeps b b'
  grows : log <+: log'
  effect : (L' = L ∧ refsOf log' = refsOf log) ∨
    ∃ r, Unborn L id ∧ apply (refsOf log) op = (refsOf log', r) ∧ L' = L ++ [⟨id, op, r⟩]
  transport : TransportAt tagOf b' log' t'
  pc : PcAt tagOf b' log' L' id op t'.pendingPacks pc'

/-- An operation by which the call does not take effect. -/
theorem stepped_quiet {t' : Transport Tag} {pc' : Pc Tag} (hs : Stands b' log) (hb : Keeps b b')
    (ht : TransportAt tagOf b' log t') (hpc : PcAt tagOf b' log L id op t'.pendingPacks pc') :
    Stepped tagOf b log L id op b' t' pc' log L :=
  ⟨hs, hb, List.prefix_refl _, .inl ⟨rfl, rfl⟩, ht, hpc⟩

/-- The read of the manifest is where a call that changes nothing takes effect. -/
theorem Before.read {next : Next} (h : Before L id op next) (refs : BTreeMap String ObjectId) :
    ∃ L', After L' id op refs next ∧ (L' = L ∨
      ∃ r, Unborn L id ∧ decided refs op = some r ∧ L' = L ++ [⟨id, op, r⟩]) := by
  have hsettle : Unborn L id → ∃ L', Settled L' id op refs ∧ (L' = L ∨
      ∃ r, Unborn L id ∧ decided refs op = some r ∧ L' = L ++ [⟨id, op, r⟩]) := by
    intro hu
    cases hd : decided refs op with
    | none => exact ⟨L, ⟨fun r hr => by simp [hd] at hr, fun _ => hu⟩, .inl rfl⟩
    | some r =>
      refine ⟨L ++ [⟨id, op, r⟩], ⟨fun r' hr' => ?_, fun hn => by simp [hd] at hn⟩,
        .inr ⟨r, hu, rfl, rfl⟩⟩
      rw [hd] at hr'
      rw [← Option.some.inj hr']
      simp
  cases next with
  | attempt n packs =>
    obtain ⟨L', hs, hL⟩ := hsettle h.2
    exact ⟨L', ⟨h.1, hs⟩, hL⟩
  | listed =>
    obtain ⟨L', hs, hL⟩ := hsettle h.2
    exact ⟨L', ⟨h.1, hs⟩, hL⟩
  | committed => exact ⟨L, h, .inl rfl⟩
  | folded => exact ⟨L, h, .inl rfl⟩

/-! ## Operations of the bucket -/

variable [DecidableEq Tag]

theorem putNew_none {k : Path} {x : Bytes} (h : b k = none) :
    mapApply tagOf b (.putNew k x) = (Function.update b k (some x), .created true) := by
  rw [mapApply, h]

theorem putNew_some {k : Path} {x y : Bytes} (h : b k = some y) :
    mapApply tagOf b (.putNew k x) = (b, .created false) := by
  rw [mapApply, h]

/-- A key that is only created, if it was not there. -/
structure Created (b b' : Path → Option Bytes) (k : Path) (x : Bytes) : Prop where
  keeps : Keeps b b'
  others : ∀ k', k' ≠ k → b' k' = b k'
  value : b' k = b k ∨ b' k = some x

theorem created_putNew (k : Path) (x : Bytes) :
    Created b (mapApply tagOf b (.putNew k x)).1 k x := by
  cases h : b k with
  | none =>
    rw [putNew_none h]
    refine ⟨fun k' y _ hy => ?_, fun k' hk' => Function.update_of_ne hk' .., .inr ?_⟩
    · have hne : k' ≠ k := by
        rintro rfl
        rw [h] at hy
        cases hy
      exact (Function.update_of_ne hne ..).trans hy
    · exact Function.update_self ..
  | some y =>
    rw [putNew_some h]
    exact ⟨.refl b, fun _ _ => rfl, .inl rfl⟩

/-- What a `put_new` may have done, and what it may answer. -/
theorem meets_putNew {k : Path} {x : Bytes} {fate : Fate} {res : Objio.Res Tag}
    (h : meets tagOf b (.putNew k x) fate = (b', res)) : Created b b' k x ∧
      (res = .failed ∨ (res = .created true ∧ b' k = some x) ∨
        (res = .created false ∧ (b' k).isSome)) := by
  have hnothing : Created b b k x := ⟨.refl b, fun _ _ => rfl, .inl rfl⟩
  cases fate with
  | lost =>
    cases h
    exact ⟨hnothing, .inl rfl⟩
  | unanswered =>
    cases h
    exact ⟨created_putNew k x, .inl rfl⟩
  | answered =>
    rw [meets] at h
    cases hk : b k with
    | none =>
      rw [putNew_none hk] at h
      cases h
      refine ⟨?_, .inr (.inl ⟨rfl, Function.update_self ..⟩)⟩
      have hcreated : Created b (mapApply tagOf b (.putNew k x)).1 k x := created_putNew k x
      rwa [putNew_none hk] at hcreated
    | some y =>
      rw [putNew_some hk] at h
      cases h
      exact ⟨hnothing, .inr (.inr ⟨rfl, by rw [hk]; rfl⟩)⟩

theorem meets_get {k : Path} {cached : Option Tag} {fate : Fate} {res : Objio.Res Tag}
    (h : meets tagOf b (.get k cached) fate = (b', res)) :
    b' = b ∧ (res = .failed ∨ res = (mapApply tagOf b (.get k cached)).2) := by
  have hsame : (mapApply tagOf b (.get k cached)).1 = b := by
    rw [mapApply]
    cases b k <;> rfl
  cases fate with
  | lost =>
    cases h
    exact ⟨rfl, .inl rfl⟩
  | unanswered =>
    cases h
    exact ⟨hsame, .inl rfl⟩
  | answered =>
    rw [meets] at h
    rw [h] at hsame
    exact ⟨hsame, .inr (by rw [h])⟩

theorem meets_exists {k : Path} {fate : Fate} {res : Objio.Res Tag}
    (h : meets tagOf b (.exists k) fate = (b', res)) :
    b' = b ∧ (res = .failed ∨ res = .found (b k).isSome) := by
  cases fate with
  | lost =>
    cases h
    exact ⟨rfl, .inl rfl⟩
  | unanswered =>
    cases h
    exact ⟨rfl, .inl rfl⟩
  | answered =>
    cases h
    exact ⟨rfl, .inr rfl⟩

theorem meets_putIfTag {k : Path} {x : Bytes} {tag : Option Tag} {fate : Fate}
    {res : Objio.Res Tag} (h : meets tagOf b (.putIfTag k x tag) fate = (b', res)) :
    (b' = b ∧ (res = .failed ∨ res = .swapped none)) ∨
      ((b k).map tagOf = tag ∧ b' = Function.update b k (some x) ∧
        (res = .failed ∨ ∃ tag', res = .swapped (some tag'))) := by
  by_cases hmatch : (b k).map tagOf = tag
  · have happly : mapApply tagOf b (.putIfTag k x tag) =
        (Function.update b k (some x), .swapped (some (tagOf x))) := by
      rw [mapApply, if_pos hmatch]
    cases fate with
    | lost =>
      cases h
      exact .inl ⟨rfl, .inl rfl⟩
    | unanswered =>
      rw [meets, happly] at h
      cases h
      exact .inr ⟨hmatch, rfl, .inl rfl⟩
    | answered =>
      rw [meets, happly] at h
      cases h
      exact .inr ⟨hmatch, rfl, .inr ⟨_, rfl⟩⟩
  · have happly : mapApply tagOf b (.putIfTag k x tag) = (b, .swapped none) := by
      rw [mapApply, if_neg hmatch]
    cases fate with
    | lost =>
      cases h
      exact .inl ⟨rfl, .inl rfl⟩
    | unanswered =>
      rw [meets, happly] at h
      cases h
      exact .inl ⟨rfl, .inl rfl⟩
    | answered =>
      rw [meets, happly] at h
      cases h
      exact .inl ⟨rfl, .inr rfl⟩

/-- A pack, an index or a log entry is created. -/
theorem Stands.created {k : Path} {x : Bytes} (h : Stands b log) (hc : Created b b' k x)
    (hk : k ≠ MANIFEST) (hck : ∀ s, checkpointKey s ≠ k) : Stands b' log :=
  h.keeps hc.keeps (hc.others _ (Ne.symm hk)) (fun s y hy => .inl (by rwa [← hc.others _ (hck s)]))

/-! ## Operations of a call -/

/-- A `refresh` with an answer that fits a part of the chain. -/
theorem refresh_at {r : Refresh Tag} {next : Next} {res : Objio.Res Tag} (hb : Stands b log)
    (ht : TransportAt tagOf b log t) (hpre : pre <+: log)
    (hturn : TurnAt tagOf b pre (r.reading.turn t.view res))
    (hafter : After L id op (refsOf pre) next) {t' : Transport Tag} {pc' : Pc Tag}
    (h : advance t op (.refresh r next) res = (t', pc')) :
    TransportAt tagOf b log t' ∧ PcAt tagOf b log L id op t'.pendingPacks pc' := by
  rw [advance, Refresh.turn] at h
  cases hr : r.reading.turn t.view res with
  | more reading =>
    rw [hr] at h hturn
    cases h
    exact ⟨ht, .inr ⟨pre, hpre, hturn, hafter⟩⟩
  | read view =>
    rw [hr] at h hturn
    cases h
    refine ⟨⟨?_, ht.pending⟩, refreshed_at hb hpre hturn hafter⟩
    intro v hv
    obtain rfl : view = some v := hv
    exact ⟨pre, hpre, hturn⟩
  | failed sawAbsent tag e =>
    rw [hr] at h hturn
    obtain rfl : sawAbsent = false := hturn
    simp only [Bool.false_eq_true, false_and, if_false] at h
    cases h
    refine ⟨ht, refreshFailed_at (fun hnext => ?_)⟩
    subst hnext
    exact hafter

/-- A `refresh` whose operation failed. -/
theorem refresh_failed {r : Refresh Tag} {next : Next} (ht : TransportAt tagOf b log t)
    (hin : next = .folded → ⟨id, op, .ok .updated⟩ ∈ L) {t' : Transport Tag} {pc' : Pc Tag}
    (h : advance t op (.refresh r next) .failed = (t', pc')) :
    TransportAt tagOf b log t' ∧ PcAt tagOf b log L id op t'.pendingPacks pc' := by
  have hturn : r.reading.turn t.view .failed = .failed false none .bucket := by
    cases r.reading <;> rfl
  rw [advance, Refresh.turn, hturn] at h
  simp only [Bool.false_eq_true, false_and, if_false] at h
  cases h
  exact ⟨ht, refreshFailed_at hin⟩

variable {fate : Fate} {res : Objio.Res Tag} {t' : Transport Tag} {pc' : Pc Tag}

theorem step_refresh {r : Refresh Tag} {next : Next}
    (htags : ∀ m m' : Manifest, tagOf m.encode = tagOf m'.encode → m.encode = m'.encode)
    (hb : Stands b log) (ht : TransportAt tagOf b log t)
    (hpc : PcAt tagOf b log L id op t.pendingPacks (.refresh r next))
    (hmeets : meets tagOf b (r.reading.op (t.view.map (·.tag))) fate = (b', res))
    (h : advance t op (.refresh r next) res = (t', pc')) :
    ∃ L', Stepped tagOf b log L id op b' t' pc' log L' := by
  have hget : b' = b ∧ (res = .failed ∨
      res = (mapApply tagOf b (r.reading.op (t.view.map (·.tag)))).2) := by
    cases hr : r.reading <;> rw [hr] at hmeets <;> exact meets_get hmeets
  obtain ⟨rfl, hres⟩ := hget
  rcases hpc with ⟨hmanifest, hbefore⟩ | ⟨pre, hpre, hreading, hafter⟩
  · rcases hres with rfl | rfl
    · have hin : next = .folded → ⟨id, op, .ok .updated⟩ ∈ L := by
        rintro rfl
        exact hbefore
      obtain ⟨ht', hpc'⟩ := refresh_failed ht hin h
      exact ⟨L, stepped_quiet hb (.refl _) ht' hpc'⟩
    · have hturn : TurnAt tagOf b' log (r.reading.turn t.view
          (mapApply tagOf b' (r.reading.op (t.view.map (·.tag)))).2) := by
        rw [hmanifest]
        exact turn_manifest hb htags ht.view
      obtain ⟨L', hafter, hL⟩ := hbefore.read (refsOf log)
      obtain ⟨ht', hpc'⟩ := refresh_at hb ht (List.prefix_refl log) hturn hafter h
      refine ⟨L', hb, .refl _, List.prefix_refl _, ?_, ht', hpc'⟩
      rcases hL with rfl | ⟨r, hu, hd, rfl⟩
      · exact .inl ⟨rfl, rfl⟩
      · exact .inr ⟨r, hu, apply_decided hd, rfl⟩
  · rcases hres with rfl | rfl
    · have hin : next = .folded → ⟨id, op, .ok .updated⟩ ∈ L := by
        rintro rfl
        exact hafter
      obtain ⟨ht', hpc'⟩ := refresh_failed ht hin h
      exact ⟨L, stepped_quiet hb (.refl _) ht' hpc'⟩
    · obtain ⟨ht', hpc'⟩ := refresh_at hb ht hpre (turn_at hb hpre hreading) hafter h
      exact ⟨L, stepped_quiet hb (.refl _) ht' hpc'⟩

/-- A pack or an index is uploaded, for a `put_pack` or an update. -/
theorem upload_failed {u : Upload} {pc : Pc Tag} (hpc : pc = .putPack u ∨ pc = .putIdx u)
    (ht : TransportAt tagOf b log t) (h : advance t op pc .failed = (t', pc')) :
    TransportAt tagOf b log t' ∧ PcAt tagOf b log L id op t'.pendingPacks pc' := by
  have hfail : ∀ t₁ : Transport Tag, t₁.view = t.view → t₁.pendingPacks = t.pendingPacks →
      (t₁, (.done (.error (.failed .bucket)) : Pc Tag)) = (t', pc') →
      TransportAt tagOf b log t' ∧ PcAt tagOf b log L id op t'.pendingPacks pc' := by
    intro t₁ hview hpending heq
    cases heq
    exact ⟨⟨by rw [hview]; exact ht.view, by rw [hpending]; exact ht.pending⟩, trivial⟩
  rcases hpc with rfl | rfl
  · cases op with
    | putPack objects => exact hfail t rfl rfl h
    | listRefs => exact hfail { t with staged := u.objects } rfl rfl h
    | updateRef branch tip expectedOld => exact hfail { t with staged := u.objects } rfl rfl h
  · cases op with
    | putPack objects => exact hfail t rfl rfl h
    | listRefs => exact hfail { t with staged := u.objects } rfl rfl h
    | updateRef branch tip expectedOld => exact hfail { t with staged := u.objects } rfl rfl h

theorem step_putPack {u : Upload} (hb : Stands b log) (ht : TransportAt tagOf b log t)
    (hpc : PcAt tagOf b log L id op t.pendingPacks (.putPack u))
    (hmeets : meets tagOf b (.putNew (packKey u.hash) u.pack) fate = (b', res))
    (h : advance t op (.putPack u) res = (t', pc')) :
    ∃ L', Stepped tagOf b log L id op b' t' pc' log L' := by
  obtain ⟨hcreated, hres⟩ := meets_putNew hmeets
  have hs' := hb.created hcreated (packKey_ne _)
    (fun s => key_ne (head_checkpointKey s) (head_packKey _) (by decide))
  have ht₁ := ht.mono hcreated.keeps (List.prefix_refl log)
  refine ⟨L, ?_⟩
  rcases hres with rfl | ⟨rfl, -⟩ | ⟨rfl, -⟩
  · obtain ⟨ht', hpc'⟩ := upload_failed (.inl rfl) ht₁ h
    exact stepped_quiet hs' hcreated.keeps ht' hpc'
  · cases h
    exact stepped_quiet hs' hcreated.keeps ht₁ hpc
  · cases h
    exact stepped_quiet hs' hcreated.keeps ht₁ hpc

/-- With its index in the bucket a pack is pending, and a `put_pack` has taken effect. -/
theorem uploaded_at {u : Upload} {made : Bool} (hs : Stands b' log) (hb : Keeps b b')
    (ht : TransportAt tagOf b' log t)
    (hpc : PcAt tagOf b log L id op t.pendingPacks (.putIdx u))
    (h : advance t op (.putIdx u) (.created made) = (t', pc')) :
    ∃ L', Stepped tagOf b log L id op b' t' pc' log L' := by
  obtain ⟨hu, hup⟩ := hpc
  have hpush := ht.push hup.fits
  rcases hup.purpose with rfl | hsends
  · cases h
    refine ⟨L ++ [⟨id, _, .ok (.ids (u.objects.map (·.1)))⟩], hs, hb, List.prefix_refl _,
      .inr ⟨_, hu, rfl, rfl⟩, hpush, ?_⟩
    exact List.mem_append_right _ List.mem_cons_self
  · have hop : ∃ branch tip expectedOld, op = .updateRef branch tip expectedOld :=
      ⟨_, _, _, hsends.choose_spec.choose_spec.choose_spec.1⟩
    obtain ⟨branch, tip, expectedOld, rfl⟩ := hop
    cases h
    exact ⟨L, stepped_quiet hs hb hpush.take (attempt_at hu hsends 0)⟩

theorem step_putIdx {u : Upload} (hb : Stands b log) (ht : TransportAt tagOf b log t)
    (hpc : PcAt tagOf b log L id op t.pendingPacks (.putIdx u))
    (hmeets : meets tagOf b (.putNew (idxKey u.hash) u.idx) fate = (b', res))
    (h : advance t op (.putIdx u) res = (t', pc')) :
    ∃ L', Stepped tagOf b log L id op b' t' pc' log L' := by
  obtain ⟨hcreated, hres⟩ := meets_putNew hmeets
  have hs' := hb.created hcreated (idxKey_ne _)
    (fun s => key_ne (head_checkpointKey s) (head_idxKey _) (by decide))
  have ht₁ := ht.mono hcreated.keeps (List.prefix_refl log)
  rcases hres with rfl | ⟨rfl, -⟩ | ⟨rfl, -⟩
  · obtain ⟨ht', hpc'⟩ := upload_failed (.inr rfl) ht₁ h
    exact ⟨L, stepped_quiet hs' hcreated.keeps ht' hpc'⟩
  · exact uploaded_at hs' hcreated.keeps ht₁ hpc h
  · exact uploaded_at hs' hcreated.keeps ht₁ hpc h

theorem step_claim {a : Attempt Tag} {seq : UInt64} (hb : Stands b log)
    (ht : TransportAt tagOf b log t)
    (hpc : PcAt tagOf b log L id op t.pendingPacks (.claim a seq))
    (hmeets : meets tagOf b (.putNew (logKey seq) (a.entryAt seq).encode) fate = (b', res))
    (h : advance t op (.claim a seq) res = (t', pc')) :
    ∃ L', Stepped tagOf b log L id op b' t' pc' log L' := by
  obtain ⟨hcreated, hres⟩ := meets_putNew hmeets
  have hs' := hb.created hcreated (logKey_ne _)
    (fun s => key_ne (head_checkpointKey s) (head_logKey _) (by decide))
  have ht₁ := ht.mono hcreated.keeps (List.prefix_refl log)
  obtain ⟨pre, ha, hlt⟩ := hpc
  have ha' := ha.mono hcreated.keeps (List.prefix_refl log) (.refl id L)
  refine ⟨L, ?_⟩
  rcases hres with rfl | ⟨rfl, hslot⟩ | ⟨rfl, -⟩
  · cases h
    exact stepped_quiet hs' hcreated.keeps ht₁ trivial
  · cases h
    exact stepped_quiet hs' hcreated.keeps ht₁
      (ensurePresent_at ⟨ha', hlt, hslot⟩ (fun p hp => .inl hp))
  · cases h
    exact stepped_quiet hs' hcreated.keeps ht₁ (claimAfter_at ha' (UInt64.le_of_lt hlt))

theorem step_packPresent {a : Attempt Tag} {seq : UInt64} {hash : String} {rest : List String}
    (hb : Stands b log) (ht : TransportAt tagOf b log t)
    (hpc : PcAt tagOf b log L id op t.pendingPacks (.packPresent a seq hash rest))
    (hmeets : meets tagOf b (.exists (packKey hash)) fate = (b', res))
    (h : advance t op (.packPresent a seq hash rest) res = (t', pc')) :
    ∃ L', Stepped tagOf b log L id op b' t' pc' log L' := by
  obtain ⟨rfl, hres⟩ := meets_exists hmeets
  refine ⟨L, ?_⟩
  rcases hres with rfl | rfl
  · cases h
    exact stepped_quiet hb (.refl _) ht trivial
  · cases hk : (b' (packKey hash)).isSome <;> rw [hk] at h <;> cases h
    · exact stepped_quiet hb (.refl _) ht trivial
    · exact stepped_quiet hb (.refl _) ht hpc

theorem step_idxPresent {a : Attempt Tag} {seq : UInt64} {hash : String} {rest : List String}
    (hb : Stands b log) (ht : TransportAt tagOf b log t)
    (hpc : PcAt tagOf b log L id op t.pendingPacks (.idxPresent a seq hash rest))
    (hmeets : meets tagOf b (.exists (idxKey hash)) fate = (b', res))
    (h : advance t op (.idxPresent a seq hash rest) res = (t', pc')) :
    ∃ L', Stepped tagOf b log L id op b' t' pc' log L' := by
  obtain ⟨rfl, hres⟩ := meets_exists hmeets
  obtain ⟨pre, ha, hpacks⟩ := hpc
  refine ⟨L, ?_⟩
  rcases hres with rfl | rfl
  · cases h
    exact stepped_quiet hb (.refl _) ht trivial
  · cases hk : (b' (idxKey hash)).isSome <;> rw [hk] at h <;> cases h
    · exact stepped_quiet hb (.refl _) ht trivial
    · refine stepped_quiet hb (.refl _) ht (ensurePresent_at ha (fun p hp => ?_))
      rcases hpacks p hp with hp | hp
      · rcases List.mem_cons.mp hp with rfl | hp
        · exact .inr hk
        · exact .inl hp
      · exact .inr hp

/-- A swapped manifest is where an update takes effect, answered or not. -/
theorem step_commit {a : Attempt Tag} {seq : UInt64}
    (htags : ∀ m m' : Manifest, tagOf m.encode = tagOf m'.encode → m.encode = m'.encode)
    (hb : Stands b log) (ht : TransportAt tagOf b log t)
    (hpc : PcAt tagOf b log L id op t.pendingPacks (.commit a seq))
    (hmeets : meets tagOf b (.putIfTag MANIFEST (a.manifestAt seq).encode a.prevTag) fate =
      (b', res))
    (h : advance t op (.commit a seq) res = (t', pc')) :
    ∃ log' L', Stepped tagOf b log L id op b' t' pc' log' L' := by
  obtain ⟨pre, ha, hpacks⟩ := hpc
  rcases meets_putIfTag hmeets with ⟨rfl, hres⟩ | ⟨hmatch, rfl, hres⟩
  · refine ⟨log, L, ?_⟩
    rcases hres with rfl | rfl
    · cases h
      exact stepped_quiet hb (.refl _) ht trivial
    · cases h
      obtain ⟨branch, tip, hop, -, hentry⟩ := ha.sends
      have hupdate := ha.fits.updates.2 ⟨branch, (refsOf pre)[branch]?, tip⟩ (by rw [hentry]; simp)
      exact stepped_quiet hb (.refl _) ht (attempt_at ha.unborn
        ⟨branch, tip, _, hop, hupdate.branch, hupdate.new, ha.fits.packs⟩ (a.n + 1))
  · obtain ⟨hs', happly⟩ := hb.commit htags ha hpacks hmatch
    have hgrow : log <+: log ++ [a.entryAt seq] := List.prefix_append _ _
    have hkeeps := keeps_manifest (b := b) (a.manifestAt seq).encode
    have ht' := ht.mono hkeeps hgrow
    have hin : ⟨id, op, .ok .updated⟩ ∈ L ++ [⟨id, op, .ok .updated⟩] := by simp
    refine ⟨log ++ [a.entryAt seq], L ++ [⟨id, op, .ok .updated⟩], ?_⟩
    rcases hres with rfl | ⟨tag', rfl⟩
    · cases h
      exact ⟨hs', hkeeps, hgrow, .inr ⟨_, ha.unborn, happly, rfl⟩, ht', trivial⟩
    · cases h
      exact ⟨hs', hkeeps, hgrow, .inr ⟨_, ha.unborn, happly, rfl⟩, ht', .inl ⟨rfl, hin⟩⟩

theorem step_fold {c : Checkpoint} {m : Manifest} {tag : Tag} (hb : Stands b log)
    (ht : TransportAt tagOf b log t)
    (hpc : PcAt tagOf b log L id op t.pendingPacks (.fold c m tag))
    (hmeets : meets tagOf b (.putNew (checkpointKey m.headSeq) c.encode) fate = (b', res))
    (h : advance t op (.fold c m tag) res = (t', pc')) :
    ∃ L', Stepped tagOf b log L id op b' t' pc' log L' := by
  obtain ⟨hin, pre, hfold, hc⟩ := hpc
  obtain ⟨hcreated, hres⟩ := meets_putNew hmeets
  have hs' : Stands b' log := by
    refine hb.keeps hcreated.keeps (hcreated.others _ (checkpointKey_ne _).symm) (fun s x hx => ?_)
    by_cases hkey : checkpointKey s = checkpointKey m.headSeq
    · have hseq := checkpointKey_injective hkey
      rw [hkey] at hx ⊢
      rcases hcreated.value with hold | hnew
      · exact .inl (hold.symm.trans hx)
      · rw [hnew] at hx
        exact .inr ⟨pre, c, hfold.part, by rw [hseq, hfold.head], hc, (Option.some.inj hx).symm⟩
    · rw [hcreated.others _ hkey] at hx
      exact .inl hx
  have ht₁ := ht.mono hcreated.keeps (List.prefix_refl log)
  have hfold' := hfold.mono hcreated.keeps (List.prefix_refl log)
  refine ⟨L, ?_⟩
  rcases hres with rfl | ⟨rfl, hsome⟩ | ⟨rfl, hsome⟩
  · cases h
    exact stepped_quiet hs' hcreated.keeps ht₁ hin
  · cases h
    exact stepped_quiet hs' hcreated.keeps ht₁ ⟨hin, pre, hfold', by rw [hsome]; rfl⟩
  · cases h
    exact stepped_quiet hs' hcreated.keeps ht₁ ⟨hin, pre, hfold', hsome⟩

theorem step_foldCommit {m : Manifest} {tag : Tag}
    (htags : ∀ m m' : Manifest, tagOf m.encode = tagOf m'.encode → m.encode = m'.encode)
    (hb : Stands b log) (ht : TransportAt tagOf b log t)
    (hpc : PcAt tagOf b log L id op t.pendingPacks (.foldCommit m tag))
    (hmeets : meets tagOf b (.putIfTag MANIFEST m.encode (some tag)) fate = (b', res))
    (h : advance t op (.foldCommit m tag) res = (t', pc')) :
    ∃ L', Stepped tagOf b log L id op b' t' pc' log L' := by
  obtain ⟨hin, pre, hfold, hc⟩ := hpc
  refine ⟨L, ?_⟩
  rcases meets_putIfTag hmeets with ⟨rfl, hres⟩ | ⟨hmatch, rfl, hres⟩
  · rcases hres with rfl | rfl <;> cases h <;> exact stepped_quiet hb (.refl _) ht hin
  · have hs' := hb.foldCommit htags hfold hc hmatch
    have hkeeps := keeps_manifest (b := b) m.encode
    have ht' := ht.mono hkeeps (List.prefix_refl log)
    rcases hres with rfl | ⟨tag', rfl⟩
    · cases h
      exact stepped_quiet hs' hkeeps ht' hin
    · cases h
      exact stepped_quiet hs' hkeeps ht' (.inl ⟨rfl, hin⟩)

/-- One operation of a call. -/
theorem advance_stepped {pc : Pc Tag} {bop : Objio.Op Tag}
    (htags : ∀ m m' : Manifest, tagOf m.encode = tagOf m'.encode → m.encode = m'.encode)
    (hb : Stands b log) (ht : TransportAt tagOf b log t)
    (hpc : PcAt tagOf b log L id op t.pendingPacks pc) (hop : pc.op t.view = some bop)
    (hmeets : meets tagOf b bop fate = (b', res)) (h : advance t op pc res = (t', pc')) :
    ∃ log' L', Stepped tagOf b log L id op b' t' pc' log' L' := by
  cases pc with
  | putPack u =>
    cases hop
    exact ⟨log, step_putPack hb ht hpc hmeets h⟩
  | putIdx u =>
    cases hop
    exact ⟨log, step_putIdx hb ht hpc hmeets h⟩
  | refresh r next =>
    cases hop
    exact ⟨log, step_refresh htags hb ht hpc hmeets h⟩
  | claim a seq =>
    cases hop
    exact ⟨log, step_claim hb ht hpc hmeets h⟩
  | packPresent a seq hash rest =>
    cases hop
    exact ⟨log, step_packPresent hb ht hpc hmeets h⟩
  | idxPresent a seq hash rest =>
    cases hop
    exact ⟨log, step_idxPresent hb ht hpc hmeets h⟩
  | commit a seq =>
    cases hop
    exact step_commit htags hb ht hpc hmeets h
  | fold c m tag =>
    cases hop
    exact ⟨log, step_fold hb ht hpc hmeets h⟩
  | foldCommit m tag =>
    cases hop
    exact ⟨log, step_foldCommit htags hb ht hpc hmeets h⟩
  | done r => cases hop

end SrcControl.BucketTransport
