import SrcControl.Repo.TranscriptDrops

/-!
# Runs of ingests and changes of trust

Every run of batches and trust changes, within the limits of the pending list and of the
signature lookups, keeps the store consistent, and a rebuild of a consistent store lists what
its live index lists.
-/

namespace SrcControl.Transcripts

open Signatures

section

variable {F : Type} {cr : Crypto} {content : ObjectId → Object}
  {fp : Finset Signer → F}

theorem Justified.eq_of_tomb {p : Peer F} {e : DropEntry} (h : Justified content p e) {t : Transcript}
    {d : ObjectId} (ht : IsTomb content e.tomb t d) : e = ⟨t.snapshot, e.tomb, d⟩ := by
  obtain ⟨u, hu, hsnap⟩ := h.isTomb
  obtain ⟨rfl, rfl⟩ := hu.unique ht
  rw [hsnap]

theorem Honored.justified {p : Peer F} {e : DropEntry} {t : Transcript} (hheld : e.tomb ∈ p.held)
    (ht : IsTomb content e.tomb t e.dropped) (hsnap : t.snapshot = e.snap)
    (h : Honored content p e.tomb t e.dropped) : Justified content p e where
  tomb := hheld
  isTomb := ⟨t, ht, hsnap⟩
  snap := hsnap ▸ h.snap
  isSnap := hsnap ▸ h.isSnap
  signed := h.signed
  fits b hd hb := by
    obtain ⟨b', hb', hs⟩ := h.fits hd
    rw [hb.unique hb', hs, hsnap]

theorem Honored.isSigned {p : Peer F} {x d : ObjectId} {t : Transcript}
    (h : Honored content p x t d) : isSigned p.sigs x = true := by
  obtain ⟨signer, -, hslot⟩ := h.signed
  obtain ⟨e, he, htarget, -⟩ := hasSlot_iff.mp hslot
  exact isSigned_iff.mpr ⟨e, he, htarget⟩

theorem SigsSound.mono {held held' : List ObjectId} {sigs : List Entry}
    (h : SigsSound cr content held sigs) (hsub : held ⊆ held') : SigsSound cr content held' sigs := by
  intro e he
  obtain ⟨h1, h2, h3⟩ := h e he
  exact ⟨hsub h1, hsub h2, h3⟩

variable [DecidableEq F]

/-- Growing trust keeps the store consistent. -/
theorem setTrusted_consistent (hfp : Function.Injective fp) {p : Peer F}
    (h : Consistent cr content fp p) {T : Finset Signer} (hT : p.trusted ⊆ T) :
    Consistent cr content fp (setTrusted cr content fp T p) := by
  have hs : SigsSound cr content ({ p with trusted := T } : Peer F).held
    ({ p with trusted := T } : Peer F).sigs := h.sound
  have hjust : ∀ e ∈ p.drops, Justified content { p with trusted := T } e := by
    intro e he
    have hj := h.drops e he
    obtain ⟨signer, hsigner, hslot⟩ := hj.signed
    exact ⟨hj.tomb, hj.isTomb, hj.snap, hj.isSnap, ⟨signer, hT hsigner, hslot⟩, hj.fits⟩
  unfold setTrusted
  rcases reevaluate_cases fp hs with ⟨hq, htrust⟩ | ⟨heq, hno⟩
  · generalize reevaluateIfTrustChanged cr content fp { p with trusted := T } = q at hq htrust
    have hheld := hq.held
    have hsigs := hq.sigs
    have htrusted := hq.trusted
    simp only at hheld hsigs htrusted
    have hhon : ∀ {x t d}, Honored content q x t d → Honored content { p with trusted := T } x t d := by
      intro x t d hh
      exact ⟨hheld ▸ hh.snap, hh.isSnap, hheld ▸ hh.fits, by rw [← htrusted, ← hsigs]; exact hh.signed⟩
    have hjust' : ∀ {e}, Justified content { p with trusted := T } e → Justified content q e := by
      intro e hj
      exact ⟨by rw [hheld]; exact hj.tomb, hj.isTomb, by rw [hheld]; exact hj.snap, hj.isSnap,
        by rw [htrusted, hsigs]; exact hj.signed, by rw [hheld]; exact hj.fits⟩
    refine ⟨by rw [hheld, hsigs]; exact h.sound, by rw [hheld, hsigs]; exact h.complete,
      by rw [hheld]; exact h.snaps, ?_, ?_, ?_, ?_, ?_⟩
    · rw [hq.index, hheld]
      exact h.index
    · intro id hid t ht
      rw [hheld] at hid
      rw [hq.index]
      refine (h.bodies id hid t ht).imp_right fun hd => ?_
      obtain ⟨e, he, hde⟩ := mem_droppedIds.mp hd
      exact mem_droppedIds.mpr ⟨e, hq.dropsMono he, hde⟩
    · intro e he
      rcases hq.drops e he with he | ⟨htomb, t, ht, hsnap, hh⟩
      · exact hjust' (hjust e he)
      · exact hjust' (hh.justified htomb ht hsnap)
    · intro id hid
      rw [hheld] at hid
      have hset := h.settled id hid
      refine ⟨fun t d ht hh => ?_, fun t d ht hsigned => ?_⟩
      · have hh' := hhon hh
        rcases hset.remembered t d ht hh'.isSigned with hp | hd
        · exact (hq.pending id hp hid t d ht).1 hh'
        · exact hq.dropsMono hd
      · rw [hsigs] at hsigned
        rcases hset.remembered t d ht hsigned with hp | hd
        · exact (hq.pending id hp hid t d ht).2
        · exact Or.inr (hq.dropsMono hd)
    · intro f hf
      rw [htrust] at hf
      cases hf
      exact ⟨T, by rw [htrusted], rfl⟩
  · rw [heq]
    have hsettled : ∀ id ∈ p.held, Settled content { p with trusted := T } id := by
      intro id hid
      have hset := h.settled id hid
      refine ⟨fun t d ht hh => ?_, hset.remembered⟩
      rcases hno with hnil | hsame
      · refine (hset.remembered t d ht hh.isSigned).resolve_left ?_
        simp only at hnil
        rw [hnil]
        exact List.not_mem_nil
      · -- The pending list was judged under this very set, so trust has not grown.
        obtain ⟨T₀, hsub, hT₀⟩ := h.trust _ hsame
        have hTeq : T = T₀ := hfp hT₀
        have hback : T ⊆ p.trusted := hTeq ▸ hsub
        obtain ⟨signer, hsigner, hslot⟩ := hh.signed
        exact hset.honored t d ht ⟨hh.snap, hh.isSnap, hh.fits, signer, hback hsigner, hslot⟩
    refine ⟨h.sound, h.complete, h.snaps, h.index, h.bodies, hjust, hsettled, ?_⟩
    intro f hf
    obtain ⟨T₀, hsub, hT₀⟩ := h.trust f hf
    exact ⟨T₀, hsub.trans hT, hT₀⟩

/-! ### Ingest -/

/-- How a batch may arrive: what its transcripts refer to has arrived, what it brings is not yet
covered by a signature that is held, and no transcript it brings is named by a recorded drop on
another snapshot. -/
structure Arrives (content : ObjectId → Object) (p : Peer F) (ids : List ObjectId) : Prop where
  snaps : ∀ id ∈ ids, ∀ t, content id = .transcript t → t.snapshot ∈ p.held ∨ t.snapshot ∈ ids
  covered : ∀ id ∈ ids, id ∉ p.held → ∀ sid ∈ p.held, sigTarget content sid ≠ some id
  named : ∀ id ∈ ids, id ∉ p.held → ∀ t, IsBody content id t →
    ∀ e ∈ p.drops, e.dropped = id → t.snapshot = e.snap

/-- The batch stays below the lookup limit, and what it adds to the pending list fits. -/
structure WithinLimits (cr : Crypto) (content : ObjectId → Object) (fp : Finset Signer → F)
    (p : Peer F) (ids : List ObjectId) : Prop where
  lookups : WithinLookups content ids
  pending : (addAll (prepare cr content fp ids p).pending (addAll []
    (indexBatch cr content ids (prepare cr content fp ids p)).inert)).length ≤ maxPending

/-- The store after `prepare`: the batch is held and its signatures are indexed. -/
structure Prepared (cr : Crypto) (content : ObjectId → Object) (fp : Finset Signer → F)
    (p : Peer F) (ids : List ObjectId) (q : Peer F) : Prop where
  held : q.held = p.held ++ ids
  sigs : q.sigs = appendEntries p.sigs (verifyIncoming cr content (p.held ++ ids) ids)
  index : q.index = p.index
  trusted : q.trusted = p.trusted
  dropsMono : p.drops ⊆ q.drops
  drops : ∀ e ∈ q.drops, e ∈ p.drops ∨ Justified content q e
  remembered : ∀ x ∈ p.held, ∀ t d, IsTomb content x t d → isSigned p.sigs x = true →
    x ∈ q.pending ∨ ⟨t.snapshot, x, d⟩ ∈ q.drops
  trust : ∀ f, q.pendingTrust = some f → ∃ T ⊆ q.trusted, f = fp T

theorem prepare_prepared {p : Peer F} (h : Consistent cr content fp p) (ids : List ObjectId) :
    Prepared cr content fp p ids (prepare cr content fp ids p) := by
  have hs : SigsSound cr content ({ p with held := p.held ++ ids } : Peer F).held
      ({ p with held := p.held ++ ids } : Peer F).sigs :=
    h.sound.mono (List.subset_append_left _ _)
  unfold prepare
  simp only
  rcases reevaluate_cases fp hs with ⟨hq, htrust⟩ | ⟨heq, -⟩
  · generalize reevaluateIfTrustChanged cr content fp { p with held := p.held ++ ids } = q at hq htrust
    have hheld := hq.held
    have hsigs := hq.sigs
    have htrusted := hq.trusted
    simp only at hheld hsigs htrusted
    refine ⟨hheld, by rw [hsigs, hheld], hq.index, htrusted, hq.dropsMono, ?_, ?_, ?_⟩
    · intro e he
      refine (hq.drops e he).imp_right fun ⟨htomb, t, ht, hsnap, hh⟩ => ?_
      have hj := hh.justified htomb ht hsnap
      obtain ⟨signer, hsigner, hslot⟩ := hj.signed
      refine ⟨by rw [hheld]; exact hj.tomb, hj.isTomb, by rw [hheld]; exact hj.snap, hj.isSnap,
        ⟨signer, by rw [htrusted]; exact hsigner, ?_⟩, by rw [hheld]; exact hj.fits⟩
      rw [hsigs]
      exact hasSlot_mono (appendEntries_subset _ _) hslot
    · intro x hx t d ht hsigned
      rcases (h.settled x hx).remembered t d ht hsigned with hp | hd
      · exact (hq.pending x hp (List.mem_append_left _ hx) t d ht).2
      · exact Or.inr (hq.dropsMono hd)
    · intro f hf
      simp only at hf ⊢
      rw [htrust] at hf
      cases hf
      exact ⟨p.trusted, by rw [htrusted], rfl⟩
  · rw [heq]
    exact ⟨rfl, rfl, rfl, rfl, List.Subset.refl _, fun _ he => Or.inl he,
      fun x hx t d ht hsigned => (h.settled x hx).remembered t d ht hsigned, h.trust⟩

omit [DecidableEq F] in
theorem Prepared.sound {p q : Peer F} {ids : List ObjectId} (hq : Prepared cr content fp p ids q)
    (h : Consistent cr content fp p) : SigsSound cr content q.held q.sigs := by
  rw [hq.held, hq.sigs]
  intro e he
  rcases mem_appendEntries he with he | he
  · exact h.sound.mono (List.subset_append_left _ _) e he
  · obtain ⟨hid, s, hc, htarget, hsigner, ha⟩ := mem_verifyIncoming.mp he
    obtain ⟨hheld, hv⟩ := acceptable_iff.mp ha
    exact ⟨List.mem_append_right _ hid, htarget ▸ hheld, s, hc, htarget, hsigner, hv⟩

/-- One batch keeps the store consistent. -/
theorem ingest_consistent {p : Peer F} (h : Consistent cr content fp p) {ids : List ObjectId}
    (ha : Arrives content p ids) (hlim : WithinLimits cr content fp p ids) :
    Consistent cr content fp (ingest cr content fp ids p) := by
  have hq := prepare_prepared h ids
  have hpend := hlim.pending
  unfold ingest indexIncoming
  generalize prepare cr content fp ids p = q at hq hpend
  have hsound := hq.sound h
  have hb := indexBatch_ok hsound hlim.lookups (by rw [hq.held]; exact List.subset_append_right _ _)
  generalize indexBatch cr content ids q = b at hb hpend
  rw [← hb.pending] at hpend
  obtain ⟨nheld, nsigs, nindex, ndrops, ntrusted, npending, ntrust⟩ := notePending_ok fp hpend
  simp only
  generalize notePending fp b.inert b.peer = r at nheld nsigs nindex ndrops ntrusted npending ntrust
  have hheld : r.held = p.held ++ ids := by rw [nheld, hb.held, hq.held]
  have hsigs : r.sigs = q.sigs := by rw [nsigs, hb.sigs]
  have htrusted : r.trusted = q.trusted := by rw [ntrusted, hb.trusted]
  have hmono : p.drops ⊆ r.drops := by
    rw [ndrops]
    exact List.Subset.trans hq.dropsMono hb.dropsMono
  have hqr : ∀ {e}, Justified content q e → Justified content r e := by
    intro e hj
    exact ⟨by rw [hheld, ← hq.held]; exact hj.tomb, hj.isTomb, by rw [hheld, ← hq.held]; exact hj.snap,
      hj.isSnap, by rw [htrusted, hsigs]; exact hj.signed, by rw [hheld, ← hq.held]; exact hj.fits⟩
  have hsigsMono : p.sigs ⊆ r.sigs := by
    rw [hsigs, hq.sigs]
    exact appendEntries_subset _ _
  have hsnaps : ∀ id ∈ r.held, ∀ t, content id = .transcript t → t.snapshot ∈ r.held := by
    intro id hid t hc
    rw [hheld] at hid ⊢
    rcases List.mem_append.mp hid with hid | hid
    · exact List.mem_append_left _ (h.snaps id hid t hc)
    · exact List.mem_append.mpr (ha.snaps id hid t hc)
  have hdrops : ∀ e ∈ r.drops, Justified content r e := by
    intro e he
    rw [ndrops] at he
    rcases hb.drops e he with he | ⟨htomb, t, ht, hsnap, hh⟩
    · rcases hq.drops e he with he | hj
      · have hj := h.drops e he
        obtain ⟨signer, hsigner, hslot⟩ := hj.signed
        refine ⟨by rw [hheld]; exact List.mem_append_left _ hj.tomb, hj.isTomb,
          by rw [hheld]; exact List.mem_append_left _ hj.snap, hj.isSnap,
          ⟨signer, by rw [htrusted, hq.trusted]; exact hsigner, hasSlot_mono hsigsMono hslot⟩, ?_⟩
        intro t hd ht
        by_cases hold : e.dropped ∈ p.held
        · exact hj.fits t hold ht
        · rw [hheld] at hd
          exact ha.named _ ((List.mem_append.mp hd).resolve_left hold) hold t ht e he rfl
      · exact hqr hj
    · exact hqr (hh.justified htomb ht hsnap)
  have hconsidered : ∀ id ∈ r.held, id ∈ b.considered → Settled content r id := by
    intro id hid hcons
    have hpinned : ∀ t d, IsTomb content id t d → (∃ e ∈ b.peer.drops, e.tomb = id) →
        ⟨t.snapshot, id, d⟩ ∈ r.drops := by
      rintro t d ht ⟨e, he, rfl⟩
      rw [← ndrops] at he
      rw [← (hdrops e he).eq_of_tomb ht]
      exact he
    refine ⟨fun t d ht hh => ?_, fun t d ht hsigned => ?_⟩
    · rcases hb.considered id hcons t d ht with he | ⟨hn, -⟩
      · exact hpinned t d ht he
      · refine absurd ?_ hn
        exact ⟨by rw [hq.held, ← hheld]; exact hh.snap, hh.isSnap,
          by rw [hq.held, ← hheld]; exact hh.fits, by rw [← htrusted, ← hsigs]; exact hh.signed⟩
    · rcases hb.considered id hcons t d ht with he | ⟨-, hinert⟩
      · exact Or.inr (hpinned t d ht he)
      · rw [hsigs] at hsigned
        refine Or.inl (npending id (Or.inr (hinert hsigned ?_)))
        rw [hq.held, ← hheld]
        exact hsnaps id hid t ht.1
  have hunconsidered : ∀ id ∈ r.held, id ∉ b.considered → Settled content r id := by
    intro id hid hcons
    by_cases hexists : ∃ t d, IsTomb content id t d
    · obtain ⟨t₀, d₀, ht₀⟩ := hexists
      have hnew : id ∉ ids := fun hm => hcons (hb.tombs id hm t₀ d₀ ht₀)
      have hold : id ∈ p.held := by
        rw [hheld] at hid
        exact (List.mem_append.mp hid).resolve_right hnew
      -- No signature of the batch covers it.
      have hentry : ∀ e ∈ r.sigs, e.target = id → e ∈ p.sigs := by
        intro e he htarget
        rw [hsigs, hq.sigs] at he
        refine (mem_appendEntries he).resolve_right fun hv => hcons ?_
        obtain ⟨hsid, s, hc, hsnap, -, -⟩ := mem_verifyIncoming.mp hv
        have hst : sigTarget content e.sig = some id :=
          sigTarget_eq_some.mpr ⟨s, hc, hsnap.trans htarget⟩
        rcases hb.covers e.sig hsid id hst with hcov | hlook
        · exact hcov
        · refine hb.lookedUp id hlook ?_ t₀ d₀ ht₀
          rw [hq.held]
          exact List.mem_append_left _ hold
      refine ⟨fun t d ht hh => ?_, fun t d ht hsigned => ?_⟩
      · obtain ⟨signer, hsigner, hslot⟩ := hh.signed
        obtain ⟨e, he, htarget, hes⟩ := hasSlot_iff.mp hslot
        have hslot' : hasSlot p.sigs id signer = true :=
          hasSlot_iff.mpr ⟨e, hentry e he htarget, htarget, hes⟩
        refine hmono ((h.settled id hold).honored t d ht ⟨h.snaps id hold t ht.1, hh.isSnap,
          fun hd => hh.fits ?_, signer, ?_, hslot'⟩)
        · rw [hheld]
          exact List.mem_append_left _ hd
        · rw [← hq.trusted, ← htrusted]
          exact hsigner
      · obtain ⟨e, he, htarget⟩ := isSigned_iff.mp hsigned
        have hsigned' := isSigned_iff.mpr ⟨e, hentry e he htarget, htarget⟩
        rcases hq.remembered id hold t d ht hsigned' with hp | hd
        · refine Or.inl (npending id (Or.inl ?_))
          rw [hb.pending]
          exact hp
        · right
          rw [ndrops]
          exact hb.dropsMono hd
    · exact ⟨fun t d ht _ => absurd ⟨t, d, ht⟩ hexists, fun t d ht _ => absurd ⟨t, d, ht⟩ hexists⟩
  refine ⟨by rw [hsigs, hheld, ← hq.held]; exact hsound, ?_, hsnaps, ?_, ?_, hdrops, ?_, ?_⟩
  · intro id hid s hc hacc
    rw [hheld] at hid hacc
    rcases List.mem_append.mp hid with hid | hid
    · obtain ⟨hheld', hv⟩ := acceptable_iff.mp hacc
      have hold : s.snapshot ∈ p.held := by
        by_contra hno
        refine ha.covered _ ((List.mem_append.mp hheld').resolve_left hno) hno id hid ?_
        exact sigTarget_eq_some.mpr ⟨s, hc, rfl⟩
      exact hasSlot_mono hsigsMono (h.complete id hid s hc (acceptable_iff.mpr ⟨hold, hv⟩))
    · rw [hsigs, hq.sigs]
      have hmem : (⟨s.snapshot, id, s.signer⟩ : Entry) ∈
          verifyIncoming cr content (p.held ++ ids) ids :=
        mem_verifyIncoming.mpr ⟨hid, s, hc, rfl, rfl, hacc⟩
      exact hasSlot_appendEntries hmem
  · intro e he
    rw [nindex] at he
    rw [hheld]
    rcases hb.index e he with he | ⟨hid, ht⟩
    · rw [hq.index] at he
      obtain ⟨hin, ht⟩ := h.index e he
      exact ⟨List.mem_append_left _ hin, ht⟩
    · exact ⟨List.mem_append_right _ hid, ht⟩
  · intro id hid t ht
    have hdr : ∀ {x}, x ∈ droppedIds b.peer → x ∈ droppedIds r := by
      intro x hx
      rwa [droppedIds, ndrops]
    rw [hheld] at hid
    rw [nindex]
    rcases List.mem_append.mp hid with hid | hid
    · rcases h.bodies id hid t ht with hi | hd
      · exact (hb.kept _ (by rw [hq.index]; exact hi)).imp_right hdr
      · obtain ⟨e, he, hde⟩ := mem_droppedIds.mp hd
        exact Or.inr (mem_droppedIds.mpr ⟨e, hmono he, hde⟩)
    · exact (hb.bodies id hid t ht).imp_right hdr
  · intro id hid
    by_cases hcons : id ∈ b.considered
    · exact hconsidered id hid hcons
    · exact hunconsidered id hid hcons
  · intro f hf
    rw [htrusted]
    rcases ntrust with hsame | hnew
    · rw [hsame, hb.pendingTrust] at hf
      exact hq.trust f hf
    · rw [hnew] at hf
      cases hf
      exact ⟨b.peer.trusted, by rw [hb.trusted], rfl⟩

/-- Batches and growths of the trusted set, from an empty store. -/
inductive Run (cr : Crypto) (content : ObjectId → Object) (fp : Finset Signer → F) :
    Peer F → Prop
  | initial (trusted : Finset Signer) : Run cr content fp (.initial trusted)
  | ingest {p : Peer F} {ids : List ObjectId} (h : Run cr content fp p)
      (ha : Arrives content p ids) (hlim : WithinLimits cr content fp p ids) :
      Run cr content fp (ingest cr content fp ids p)
  | trust {p : Peer F} {T : Finset Signer} (h : Run cr content fp p) (hT : p.trusted ⊆ T) :
      Run cr content fp (setTrusted cr content fp T p)

theorem run_consistent (hfp : Function.Injective fp) {p : Peer F} (h : Run cr content fp p) :
    Consistent cr content fp p := by
  induction h with
  | initial trusted =>
    refine ⟨?_, ?_, ?_, ?_, ?_, ?_, ?_, ?_⟩ <;> simp [Peer.initial, SigsSound]
  | ingest _ ha hlim ih => exact ingest_consistent ih ha hlim
  | trust _ hT ih => exact setTrusted_consistent hfp ih hT

/-! ### The rebuild -/

/-- A scan of `p` that has read the objects `seen`. -/
structure ScanOk (content : ObjectId → Object) (p : Peer F) (s : Scan F) : Prop where
  seen : s.seen ⊆ p.held
  waiting : s.waiting = []
  bodies : ∀ e, e ∈ s.bodies ↔ e.1 ∈ s.seen ∧ ∃ t, IsBody content e.1 t ∧ t.snapshot = e.2
  tombs : ∀ e, e ∈ s.tombs ↔ e.1 ∈ s.seen ∧ IsTomb content e.1 e.2.1 e.2.2
  honored : ∀ e ∈ s.honored, e.tomb ∈ s.seen ∧ ∃ t, IsTomb content e.tomb t e.dropped ∧
    t.snapshot = e.snap ∧ Honored content p e.tomb t e.dropped

/-- The scan has read everything and knows exactly the honoured tombstones. -/
structure ScanDone (content : ObjectId → Object) (p : Peer F) (s : Scan F) : Prop
    extends ScanOk content p s where
  all : p.held ⊆ s.seen
  complete : ∀ tomb ∈ p.held, ∀ t d, IsTomb content tomb t d → Honored content p tomb t d →
    ⟨t.snapshot, tomb, d⟩ ∈ s.honored

omit [DecidableEq F] in
theorem scanOne_ok {p : Peer F} {s : Scan F} {x : ObjectId}
    (hsnaps : ∀ id ∈ p.held, ∀ t, content id = .transcript t → t.snapshot ∈ p.held)
    (hx : x ∈ p.held) :
    (scanOne content p.held s x).seen = s.seen ∧ (scanOne content p.held s x).waiting = s.waiting ∧
      (scanOne content p.held s x).honored = s.honored ∧
      (∀ e, e ∈ (scanOne content p.held s x).bodies ↔
        e ∈ s.bodies ∨ e.1 = x ∧ ∃ t, IsBody content e.1 t ∧ t.snapshot = e.2) ∧
      (∀ e, e ∈ (scanOne content p.held s x).tombs ↔
        e ∈ s.tombs ∨ e.1 = x ∧ IsTomb content e.1 e.2.1 e.2.2) := by
  unfold scanOne
  split
  · next t hc =>
    have hheld : p.held.contains t.snapshot = true := by
      rw [List.contains_iff_mem]
      exact hsnaps x hx t hc
    rw [if_pos hheld]
    split
    · next d hd =>
      have ht : IsTomb content x t d := ⟨hc, hd⟩
      refine ⟨rfl, rfl, rfl, fun e => ?_, fun e => ?_⟩
      · refine ⟨Or.inl, fun h => h.resolve_right ?_⟩
        rintro ⟨rfl, u, hu, -⟩
        exact hu.not_tomb ht
      · rw [List.mem_append, List.mem_singleton]
        refine or_congr_right ⟨?_, ?_⟩
        · rintro rfl
          exact ⟨rfl, ht⟩
        · obtain ⟨a, u, f⟩ := e
          rintro ⟨rfl, hu⟩
          obtain ⟨rfl, rfl⟩ := hu.unique ht
          rfl
    · next hd =>
      have ht : IsBody content x t := ⟨hc, hd⟩
      refine ⟨rfl, rfl, rfl, fun e => ?_, fun e => ?_⟩
      · rw [List.mem_append, List.mem_singleton]
        refine or_congr_right ⟨?_, ?_⟩
        · rintro rfl
          exact ⟨rfl, t, ht, rfl⟩
        · obtain ⟨a, b⟩ := e
          rintro ⟨rfl, u, hu, rfl⟩
          rw [hu.unique ht]
      · refine ⟨Or.inl, fun h => h.resolve_right ?_⟩
        rintro ⟨rfl, hu⟩
        exact ht.not_tomb hu
  · next hne =>
    refine ⟨rfl, rfl, rfl, fun e => ⟨Or.inl, fun h => h.resolve_right ?_⟩,
      fun e => ⟨Or.inl, fun h => h.resolve_right ?_⟩⟩
    · rintro ⟨rfl, u, hu, -⟩
      exact hne u hu.1
    · rintro ⟨rfl, hu⟩
      exact hne _ hu.1

omit [DecidableEq F] in
theorem scanFold_ok {p : Peer F}
    (hsnaps : ∀ id ∈ p.held, ∀ t, content id = .transcript t → t.snapshot ∈ p.held)
    (ids : List ObjectId) (hids : ids ⊆ p.held) (s : Scan F) :
    (ids.foldl (scanOne content p.held) s).seen = s.seen ∧
      (ids.foldl (scanOne content p.held) s).waiting = s.waiting ∧
      (ids.foldl (scanOne content p.held) s).honored = s.honored ∧
      (∀ e, e ∈ (ids.foldl (scanOne content p.held) s).bodies ↔
        e ∈ s.bodies ∨ e.1 ∈ ids ∧ ∃ t, IsBody content e.1 t ∧ t.snapshot = e.2) ∧
      (∀ e, e ∈ (ids.foldl (scanOne content p.held) s).tombs ↔
        e ∈ s.tombs ∨ e.1 ∈ ids ∧ IsTomb content e.1 e.2.1 e.2.2) := by
  induction ids generalizing s with
  | nil => simp
  | cons x ids ih =>
    obtain ⟨h1, h2, h3, h4, h5⟩ := scanOne_ok (s := s) hsnaps (hids List.mem_cons_self)
    obtain ⟨i1, i2, i3, i4, i5⟩ := ih (fun y hy => hids (List.mem_cons_of_mem _ hy))
      (scanOne content p.held s x)
    refine ⟨i1.trans h1, i2.trans h2, i3.trans h3, fun e => ?_, fun e => ?_⟩
    · rw [List.foldl_cons, i4, h4, List.mem_cons, or_and_right, or_assoc]
    · rw [List.foldl_cons, i5, h5, List.mem_cons, or_and_right, or_assoc]

omit [DecidableEq F] in
/-- What the verdicts on `todo` leave of the honoured tombstones. -/
theorem judgeFold_honored {p : Peer F} (hs : SigsSound cr content p.held p.sigs)
    (todo : List (ObjectId × Transcript × ObjectId))
    (htodo : ∀ e ∈ todo, IsTomb content e.1 e.2.1 e.2.2) (s : Scan F) :
    (todo.foldl (judgeOne cr content p) s).seen = s.seen ∧
      (todo.foldl (judgeOne cr content p) s).waiting = s.waiting ∧
      (todo.foldl (judgeOne cr content p) s).bodies = s.bodies ∧
      (todo.foldl (judgeOne cr content p) s).tombs = s.tombs ∧
      (∀ h ∈ (todo.foldl (judgeOne cr content p) s).honored, h ∈ s.honored ∨
        ∃ e ∈ todo, h = ⟨e.2.1.snapshot, e.1, e.2.2⟩ ∧ Honored content p e.1 e.2.1 e.2.2) ∧
      (∀ h ∈ s.honored, h ∈ (todo.foldl (judgeOne cr content p) s).honored ∨
        ∃ e ∈ todo, e.1 = h.tomb) ∧
      (∀ e ∈ todo, Honored content p e.1 e.2.1 e.2.2 →
        ⟨e.2.1.snapshot, e.1, e.2.2⟩ ∈ (todo.foldl (judgeOne cr content p) s).honored) := by
  induction todo generalizing s with
  | nil => exact ⟨rfl, rfl, rfl, rfl, fun _ h => Or.inl h, fun _ h => Or.inl h, by simp⟩
  | cons x todo ih =>
    have hx := htodo x List.mem_cons_self
    obtain ⟨i1, i2, i3, i4, i5, i6, i7⟩ := ih (fun e he => htodo e (List.mem_cons_of_mem _ he))
      (judgeOne cr content p s x)
    have hframe : (judgeOne cr content p s x).seen = s.seen ∧
        (judgeOne cr content p s x).waiting = s.waiting ∧
        (judgeOne cr content p s x).bodies = s.bodies ∧
        (judgeOne cr content p s x).tombs = s.tombs := by
      unfold judgeOne
      simp only
      split <;> exact ⟨rfl, rfl, rfl, rfl⟩
    have hback : ∀ h ∈ (judgeOne cr content p s x).honored, h ∈ s.honored ∨
        h = ⟨x.2.1.snapshot, x.1, x.2.2⟩ ∧ Honored content p x.1 x.2.1 x.2.2 := by
      intro h hh
      unfold judgeOne at hh
      simp only at hh
      split at hh
      · next hhon =>
        rcases List.mem_append.mp hh with hh | hh
        · exact Or.inl (List.mem_filter.mp hh).1
        · exact Or.inr ⟨List.mem_singleton.mp hh, (honored_iff hs hx).mp hhon⟩
      · exact Or.inl (List.mem_filter.mp hh).1
    have hforth : ∀ h ∈ s.honored, h ∈ (judgeOne cr content p s x).honored ∨ x.1 = h.tomb := by
      intro h hh
      by_cases hx1 : h.tomb = x.1
      · exact Or.inr hx1.symm
      · left
        have hkeep : h ∈ s.honored.filter (fun h => h.tomb ≠ x.1) :=
          List.mem_filter.mpr ⟨hh, by simpa using hx1⟩
        unfold judgeOne
        simp only
        split
        · exact List.mem_append_left _ hkeep
        · exact hkeep
    have hadd : Honored content p x.1 x.2.1 x.2.2 →
        ⟨x.2.1.snapshot, x.1, x.2.2⟩ ∈ (judgeOne cr content p s x).honored := by
      intro hhon
      unfold judgeOne
      simp only
      rw [if_pos ((honored_iff hs hx).mpr hhon)]
      simp
    refine ⟨i1.trans hframe.1, i2.trans hframe.2.1, i3.trans hframe.2.2.1,
      i4.trans hframe.2.2.2, ?_, ?_, ?_⟩
    · intro h hh
      rcases i5 h hh with hh | ⟨e, he, heq⟩
      · rcases hback h hh with hh | heq
        · exact Or.inl hh
        · exact Or.inr ⟨x, List.mem_cons_self, heq⟩
      · exact Or.inr ⟨e, List.mem_cons_of_mem _ he, heq⟩
    · intro h hh
      rcases hforth h hh with hh | heq
      · rcases i6 h hh with hh | ⟨e, he, heq⟩
        · exact Or.inl hh
        · exact Or.inr ⟨e, List.mem_cons_of_mem _ he, heq⟩
      · exact Or.inr ⟨x, List.mem_cons_self, heq⟩
    · intro e he hhon
      rcases List.mem_cons.mp he with rfl | he
      · by_cases hagain : ∃ f ∈ todo, f.1 = e.1
        · obtain ⟨f, hf, hfe⟩ := hagain
          have hft := htodo f (List.mem_cons_of_mem _ hf)
          rw [hfe] at hft
          obtain ⟨h1, h2⟩ := hft.unique hx
          have hsame : f = e := Prod.ext hfe (Prod.ext h1 h2)
          have hres := i7 f hf (by rw [hsame]; exact hhon)
          rw [hsame] at hres
          exact hres
        · exact (i6 _ (hadd hhon)).resolve_right hagain
      · exact i7 e he hhon

theorem judge_ok {p : Peer F} (hs : SigsSound cr content p.held p.sigs) {s : Scan F}
    (h : ScanOk content p s) (hall : p.held ⊆ s.seen) (new : List ObjectId) :
    ScanDone content p (judge cr content fp p new s) := by
  unfold judge
  split
  · next hnil =>
    refine ⟨h, hall, fun tomb htomb t d ht _ => ?_⟩
    have hmem := (h.tombs (tomb, t, d)).mpr ⟨hall htomb, ht⟩
    rw [hnil] at hmem
    cases hmem
  · simp only
    -- The verdicts of an older trusted set are forgotten.
    generalize hs₁ : (if s.fp = some (fp p.trusted) then s
      else { s with honored := [], fp := some (fp p.trusted) }) = s₁
    have h₁ : ScanOk content p s₁ ∧ p.held ⊆ s₁.seen := by
      rw [← hs₁]
      split
      · exact ⟨h, hall⟩
      · exact ⟨⟨h.seen, h.waiting, h.bodies, h.tombs, by simp⟩, hall⟩
    split
    · next hempty =>
      refine ⟨h₁.1, h₁.2, fun tomb _ t d _ hhon => ?_⟩
      obtain ⟨signer, hsigner, -⟩ := hhon.signed
      rw [hempty] at hsigner
      exact absurd hsigner (Finset.notMem_empty _)
    · generalize htodo : s₁.tombs.filter (fun e =>
        !(s₁.honored.map (·.tomb)).contains e.1 || new.contains e.2.2) = todo
      have hsub : ∀ e ∈ todo, e ∈ s₁.tombs := by
        rw [← htodo]
        exact fun e he => (List.mem_filter.mp he).1
      have htomb : ∀ e ∈ todo, IsTomb content e.1 e.2.1 e.2.2 := fun e he =>
        ((h₁.1.tombs e).mp (hsub e he)).2
      obtain ⟨j1, j2, j3, j4, j5, j6, j7⟩ := judgeFold_honored hs todo htomb s₁
      refine ⟨⟨by rw [j1]; exact h₁.1.seen, by rw [j2]; exact h₁.1.waiting,
        by rw [j3, j1]; exact h₁.1.bodies, by rw [j4, j1]; exact h₁.1.tombs, ?_⟩,
        by rw [j1]; exact h₁.2, ?_⟩
      · intro x hx
        rw [j1]
        rcases j5 x hx with hx | ⟨e, he, rfl, hhon⟩
        · exact h₁.1.honored x hx
        · obtain ⟨hseen, ht⟩ := (h₁.1.tombs e).mp (hsub e he)
          exact ⟨hseen, e.2.1, ht, rfl, hhon⟩
      · intro tomb hheld t d ht hhon
        have hmem : (tomb, t, d) ∈ s₁.tombs := (h₁.1.tombs _).mpr ⟨h₁.2 hheld, ht⟩
        by_cases hin : (tomb, t, d) ∈ todo
        · exact j7 _ hin hhon
        · -- An earlier verdict stands.
          have hold : tomb ∈ s₁.honored.map (·.tomb) := by
            by_contra hno
            have hnone : (s₁.honored.map (·.tomb)).contains tomb = false := by
              rw [← Bool.not_eq_true, List.contains_iff_mem]
              exact hno
            refine hin ?_
            rw [← htodo]
            exact List.mem_filter.mpr ⟨hmem, by simp only [hnone]; rfl⟩
          obtain ⟨x, hx, hxt⟩ := List.mem_map.mp hold
          obtain ⟨-, u, hu, hsnap, -⟩ := h₁.1.honored x hx
          have hxe : x = ⟨t.snapshot, tomb, d⟩ := by
            rw [hxt] at hu
            obtain ⟨rfl, rfl⟩ := hu.unique ht
            obtain ⟨xs, xt, xd⟩ := x
            simp only at hxt hsnap
            rw [hxt, hsnap]
          rw [← hxe]
          refine (j6 x hx).resolve_right ?_
          rintro ⟨e, he, het⟩
          have hte := htomb e he
          rw [het, hxt] at hte
          obtain ⟨h1, h2⟩ := hte.unique ht
          have hsame : e = (tomb, t, d) := Prod.ext (het.trans hxt) (Prod.ext h1 h2)
          exact hin (hsame ▸ he)

theorem pass_ok {p : Peer F} (h : Consistent cr content fp p) {s : Scan F}
    (hs : ScanOk content p s) : ScanDone content p (pass cr content fp p s).1 := by
  unfold pass
  simp only
  generalize hnew : p.held.dedup.filter (fun id => !s.seen.contains id) = new
  have hmem : ∀ x, x ∈ new ↔ x ∈ p.held ∧ x ∉ s.seen := by
    intro x
    rw [← hnew, List.mem_filter, List.mem_dedup]
    simp
  have hsub : new ⊆ p.held := fun x hx => ((hmem x).mp hx).1
  rw [hs.waiting]
  simp only [List.filter_nil, List.map_nil, List.append_nil]
  obtain ⟨f1, f2, f3, f4, f5⟩ := scanFold_ok h.snaps new hsub
    { s with seen := s.seen ++ new, waiting := [] }
  refine judge_ok h.sound ⟨?_, f2, ?_, ?_, ?_⟩ ?_ new
  · rw [f1]
    exact List.append_subset.mpr ⟨hs.seen, hsub⟩
  · intro e
    rw [f4, f1, hs.bodies, List.mem_append, or_and_right]
  · intro e
    rw [f5, f1, hs.tombs, List.mem_append, or_and_right]
  · intro e he
    rw [f3] at he
    rw [f1]
    obtain ⟨hseen, hrest⟩ := hs.honored e he
    exact ⟨List.mem_append_left _ hseen, hrest⟩
  · intro x hx
    rw [f1, List.mem_append]
    by_cases hxs : x ∈ s.seen
    · exact Or.inl hxs
    · exact Or.inr ((hmem x).mpr ⟨hx, hxs⟩)

theorem catchUp_ok {p : Peer F} (h : Consistent cr content fp p) (n : Nat) {s : Scan F}
    (hs : ScanOk content p s) : ScanOk content p (catchUp cr content fp p n s) := by
  induction n generalizing s with
  | zero => exact hs
  | succ n ih =>
    have hp := (pass_ok h hs).toScanOk
    unfold catchUp
    simp only
    split
    · exact ih hp
    · exact hp

/-- A rebuild of a consistent store lists what its live index lists. -/
theorem reindex_listed {p : Peer F} (h : Consistent cr content fp p) (e : ObjectId × ObjectId) :
    e ∈ listed (reindex cr content fp p) ↔ e ∈ listed p := by
  have hstart : ScanOk content p (.initial : Scan F) := by
    refine ⟨?_, rfl, ?_, ?_, ?_⟩ <;> simp [Scan.initial]
  have hdone := pass_ok h (catchUp_ok h 4 (pass_ok h hstart).toScanOk)
  rw [mem_listed_iff h]
  unfold reindex
  generalize (pass cr content fp p (catchUp cr content fp p 4
    (pass cr content fp p .initial).1)).1 = s at hdone
  have hseen : ∀ x, x ∈ s.seen ↔ x ∈ p.held := fun x => ⟨fun hx => hdone.seen hx, fun hx => hdone.all hx⟩
  have hhidden : ∀ x, x ∈ s.honored.map (·.dropped) ↔ Hidden content p x := by
    intro x
    rw [List.mem_map]
    constructor
    · rintro ⟨d, hd, rfl⟩
      obtain ⟨htomb, t, ht, -, hhon⟩ := hdone.honored d hd
      exact ⟨d.tomb, (hseen _).mp htomb, t, ht, hhon⟩
    · rintro ⟨tomb, htomb, t, ht, hhon⟩
      exact ⟨_, hdone.complete tomb htomb t x ht hhon, rfl⟩
  rw [mem_listed]
  simp only [droppedIds, List.mem_map, List.mem_filter, Bool.not_eq_true', Prod.exists]
  constructor
  · rintro ⟨⟨id, snap, ⟨hb, hno⟩, rfl⟩, -⟩
    obtain ⟨hs, ht⟩ := (hdone.bodies _).mp hb
    refine ⟨(hseen _).mp hs, ht, fun hh => ?_⟩
    have hin := (hhidden _).mpr hh
    rw [← List.contains_iff_mem, hno] at hin
    cases hin
  · rintro ⟨hheld, ht, hno⟩
    have hnd : e.2 ∉ s.honored.map (·.dropped) := fun hd => hno ((hhidden _).mp hd)
    refine ⟨⟨e.2, e.1, ⟨(hdone.bodies _).mpr ⟨(hseen _).mpr hheld, ht⟩, ?_⟩, rfl⟩, ?_⟩
    · rw [← Bool.not_eq_true, List.contains_iff_mem]
      exact hnd
    · rw [← List.mem_map]
      exact hnd

/-! ### What is listed depends on what is held -/

omit [DecidableEq F] in
theorem hasSlot_iff_held {p : Peer F} (h : Consistent cr content fp p) {target : ObjectId}
    {signer : Signer} : hasSlot p.sigs target signer = true ↔ ∃ id ∈ p.held, ∃ s,
      content id = .signature s ∧ s.snapshot = target ∧ s.signer = signer ∧
        acceptable cr content p.held s = true := by
  constructor
  · intro hslot
    obtain ⟨e, he, htarget, hsigner⟩ := hasSlot_iff.mp hslot
    obtain ⟨hsid, hheld, s, hc, hst, hss, hv⟩ := h.sound e he
    exact ⟨e.sig, hsid, s, hc, hst.trans htarget, hss.trans hsigner,
      acceptable_iff.mpr ⟨hst ▸ hheld, hv⟩⟩
  · rintro ⟨id, hid, s, hc, rfl, rfl, ha⟩
    exact h.complete id hid s hc ha

omit [DecidableEq F] in
theorem hidden_congr {p q : Peer F} (hp : Consistent cr content fp p)
    (hq : Consistent cr content fp q) (hheld : ∀ id, id ∈ p.held ↔ id ∈ q.held)
    (htrusted : p.trusted = q.trusted) {id : ObjectId} (h : Hidden content p id) :
    Hidden content q id := by
  obtain ⟨tomb, htomb, t, ht, hhon⟩ := h
  obtain ⟨signer, hsigner, hslot⟩ := hhon.signed
  obtain ⟨sid, hsid, s, hc, hst, hss, ha⟩ := (hasSlot_iff_held hp).mp hslot
  obtain ⟨hsnap, hv⟩ := acceptable_iff.mp ha
  refine ⟨tomb, (hheld _).mp htomb, t, ht, (hheld _).mp hhon.snap, hhon.isSnap,
    fun hd => hhon.fits ((hheld _).mpr hd), signer, htrusted ▸ hsigner, ?_⟩
  exact (hasSlot_iff_held hq).mpr ⟨sid, (hheld _).mp hsid, s, hc, hst, hss,
    acceptable_iff.mpr ⟨(hheld _).mp hsnap, hv⟩⟩

theorem listed_congr (hfp : Function.Injective fp) {p q : Peer F} (hp : Run cr content fp p)
    (hq : Run cr content fp q) (hheld : ∀ id, id ∈ p.held ↔ id ∈ q.held)
    (htrusted : p.trusted = q.trusted) (e : ObjectId × ObjectId) : e ∈ listed p ↔ e ∈ listed q := by
  have hpc := run_consistent hfp hp
  have hqc := run_consistent hfp hq
  have hhidden : Hidden content p e.2 ↔ Hidden content q e.2 :=
    ⟨hidden_congr hpc hqc hheld htrusted,
      hidden_congr hqc hpc (fun id => (hheld id).symm) htrusted.symm⟩
  rw [mem_listed_iff hpc, mem_listed_iff hqc, hheld, hhidden]

/-! ### A dropped transcript stays dropped -/

omit [DecidableEq F] in
theorem consider_drops (id : ObjectId) (t : Transcript) (d : ObjectId) (b : Batch F) :
    b.peer.drops ⊆ (consider cr content id t d b).peer.drops := by
  unfold consider
  simp only
  split
  · exact List.Subset.refl _
  · split
    · exact fun e he => mem_appendDrop.mpr (Or.inl he)
    · split <;> exact List.Subset.refl _

omit [DecidableEq F] in
theorem lookUp_drops (target : ObjectId) (b : Batch F) :
    b.peer.drops ⊆ (lookUp cr content target b).peer.drops := by
  unfold lookUp
  simp only
  split
  · split
    · split
      · exact @consider_drops F cr content target _ _
          { b with lookedUp := target :: b.lookedUp, lookups := b.lookups + 1 }
      · exact List.Subset.refl _
    · exact List.Subset.refl _
  · exact List.Subset.refl _

omit [DecidableEq F] in
theorem indexOne_drops (b : Batch F) (id : ObjectId) :
    b.peer.drops ⊆ (indexOne cr content b id).peer.drops := by
  unfold indexOne
  split
  · split
    · split
      · exact List.Subset.refl _
      · exact @consider_drops F cr content _ _ _ _
    · rw [appendIndex_drops]
      exact List.Subset.refl _
  · split
    · exact lookUp_drops _ b
    · exact List.Subset.refl _
  · exact List.Subset.refl _

theorem foldl_drops {α β : Type} (drops : β → List DropEntry) {f : β → α → β}
    (h : ∀ b a, drops b ⊆ drops (f b a)) (l : List α) (b : β) : drops b ⊆ drops (l.foldl f b) := by
  induction l generalizing b with
  | nil => exact List.Subset.refl _
  | cons a l ih => exact List.Subset.trans (h b a) (ih (f b a))

omit [DecidableEq F] in
theorem notePending_drops (new : List ObjectId) (p : Peer F) : (notePending fp new p).drops = p.drops := by
  unfold notePending writePending
  simp only
  split_ifs <;> rfl

omit [DecidableEq F] in
theorem rejudge_drops (acc : List ObjectId × Peer F) (id : ObjectId) :
    acc.2.drops ⊆ (rejudge cr content acc id).2.drops := by
  unfold rejudge
  split
  · split
    · split
      · split
        · exact fun e he => mem_appendDrop.mpr (Or.inl he)
        · exact List.Subset.refl _
      · exact List.Subset.refl _
    · exact List.Subset.refl _
  · exact List.Subset.refl _

theorem reevaluate_drops (p : Peer F) :
    p.drops ⊆ (reevaluateIfTrustChanged cr content fp p).drops := by
  unfold reevaluateIfTrustChanged
  split
  · unfold reevaluateInner writePending
    have hfold := foldl_drops (fun acc : List ObjectId × Peer F => acc.2.drops)
      (@rejudge_drops F cr content) p.pending ([], p)
    simp only at hfold ⊢
    split_ifs <;> exact hfold
  · exact List.Subset.refl _

/-- What may follow: the operations on the transcript index, and any change to what is held,
signed, trusted or pending that leaves the index and the drops alone. -/
inductive Later (cr : Crypto) (content : ObjectId → Object) (fp : Finset Signer → F) :
    Peer F → Peer F → Prop
  | refl (p : Peer F) : Later cr content fp p p
  | appendIndex {p q : Peer F} (snap tid : ObjectId) (h : Later cr content fp p q) :
      Later cr content fp p (appendIndex snap tid q)
  | indexIncoming {p q : Peer F} (ids : List ObjectId) (h : Later cr content fp p q) :
      Later cr content fp p (indexIncoming cr content fp ids q)
  | gcPrune {p q : Peer F} (reachable : List ObjectId) (h : Later cr content fp p q) :
      Later cr content fp p (gcPrune reachable q)
  | reevaluate {p q : Peer F} (h : Later cr content fp p q) :
      Later cr content fp p (reevaluateIfTrustChanged cr content fp q)
  | other {p q r : Peer F} (h : Later cr content fp p q) (hi : r.index = q.index)
      (hd : r.drops = q.drops) : Later cr content fp p r

theorem later_drops {p q : Peer F} (h : Later cr content fp p q) : p.drops ⊆ q.drops := by
  induction h with
  | refl => exact List.Subset.refl _
  | appendIndex snap tid _ ih =>
    rw [appendIndex_drops]
    exact ih
  | indexIncoming ids _ ih =>
    refine List.Subset.trans ih ?_
    unfold indexIncoming indexBatch
    simp only
    rw [notePending_drops]
    exact foldl_drops (f := indexOne cr content) (fun b : Batch F => b.peer.drops) indexOne_drops
      ids (.start _)
  | gcPrune reachable _ ih =>
    refine List.Subset.trans ih ?_
    unfold gcPrune
    simp only
    split <;> exact List.Subset.refl _
  | reevaluate _ ih => exact List.Subset.trans ih (reevaluate_drops _)
  | other _ _ hd ih =>
    rw [hd]
    exact ih

theorem later_hidden {p q : Peer F} (h : Later cr content fp p q) {id : ObjectId}
    (hid : id ∈ droppedIds p) (snap : ObjectId) : (snap, id) ∉ listed q := by
  rw [mem_listed]
  rintro ⟨-, hno⟩
  obtain ⟨e, he, hde⟩ := mem_droppedIds.mp hid
  exact hno (mem_droppedIds.mpr ⟨e, later_drops h he, hde⟩)

/-- The live index of every run is that of a rebuild and depends on nothing but what is held and
who is trusted; what a drop has hidden stays hidden. -/
theorem drops_converge (hfp : Function.Injective fp) :
    (∀ p : Peer F, Run cr content fp p → ∀ e, e ∈ listed p ↔ e ∈ listed (reindex cr content fp p)) ∧
    (∀ p q : Peer F, Run cr content fp p → Run cr content fp q →
      (∀ id, id ∈ p.held ↔ id ∈ q.held) → p.trusted = q.trusted →
      ∀ e, e ∈ listed p ↔ e ∈ listed q) ∧
    (∀ (p q : Peer F) (id : ObjectId), id ∈ droppedIds p → Later cr content fp p q →
      ∀ snap, (snap, id) ∉ listed q) :=
  ⟨fun _ hp e => (reindex_listed (run_consistent hfp hp) e).symm,
    fun _ _ hp hq hheld htrusted e => listed_congr hfp hp hq hheld htrusted e,
    fun _ _ _ hid h snap => later_hidden h hid snap⟩

end

/-! ### Three objects in two orders -/

/-- Every signature verifies. -/
def trustingCrypto : Crypto := ⟨fun _ _ _ => true, fun _ _ _ => true, fun id => id.bytes⟩

def idOf (n : UInt8) : ObjectId := ⟨List.replicate 32 n⟩

/-- Snapshots 1 and 2, transcript 3 on snapshot 1, the tombstone 4 for it on snapshot `on`, and
signature 5 over the tombstone. -/
def sampleContent (on : UInt8) (id : ObjectId) : Object :=
  if id = idOf 3 then .transcript ⟨idOf 1, "agent", "session", [0], [0], []⟩
  else if id = idOf 4 then .transcript (.dropTombstone (idOf on) (idOf 3))
  else if id = idOf 5 then .signature ⟨idOf 4, [7], []⟩
  else .snapshot ⟨idOf 0, [], "", 0, "", ∅, default⟩

/-- The signature's batch before the tombstone's, or the tombstone before the transcript. -/
def inBatches (on : UInt8) (batches : List (List ObjectId)) : Peer (Finset Signer) :=
  batches.foldl (fun p ids => ingest trustingCrypto (sampleContent on) id ids p)
    (.initial {[7]})

/-- Each snapshot arrives before or together with what refers to it, and nothing more. -/
structure SnapshotsFirst (content : ObjectId → Object) (p : Peer (Finset Signer))
    (ids : List ObjectId) : Prop where
  snaps : ∀ id ∈ ids, ∀ t, content id = .transcript t → t.snapshot ∈ p.held ∨ t.snapshot ∈ ids
  covered : ∀ id ∈ ids, id ∉ p.held → isSnapshot (content id) = true →
    ∀ sid ∈ p.held, sigTarget content sid ≠ some id

/-- Batches in which snapshots come first, within the limits. -/
inductive LooseRun (content : ObjectId → Object) : Peer (Finset Signer) → Prop
  | initial (trusted : Finset Signer) : LooseRun content (.initial trusted)
  | ingest {p : Peer (Finset Signer)} {ids : List ObjectId} (h : LooseRun content p)
      (ha : SnapshotsFirst content p ids) (hlim : WithinLimits trustingCrypto content id p ids) :
      LooseRun content (ingest trustingCrypto content id ids p)

theorem sample_snapshot {on : UInt8} {id : ObjectId} {t : Transcript}
    (h : sampleContent on id = .transcript t) : t.snapshot = idOf 1 ∨ t.snapshot = idOf on := by
  unfold sampleContent at h
  split_ifs at h
  · cases h
    exact Or.inl rfl
  · cases h
    exact Or.inr rfl

theorem sample_target {on : UInt8} {id target : ObjectId}
    (h : sigTarget (sampleContent on) id = some target) : id = idOf 5 ∧ target = idOf 4 := by
  obtain ⟨s, hs, rfl⟩ := sigTarget_eq_some.mp h
  unfold sampleContent at hs
  split_ifs at hs with _ _ h5
  cases hs
  exact ⟨h5, rfl⟩

theorem sample_first {on : UInt8} {p : Peer (Finset Signer)} {ids : List ObjectId}
    (h : ∀ x ∈ [idOf 1, idOf on], x ∈ p.held ∨ x ∈ ids) :
    SnapshotsFirst (sampleContent on) p ids := by
  refine ⟨fun id _ t ht => ?_, fun id _ _ hsnap sid _ hs => ?_⟩
  · rcases sample_snapshot ht with he | he
    · rw [he]
      exact h _ (by simp)
    · rw [he]
      exact h _ (by simp)
  · rw [(sample_target hs).2] at hsnap
    have hno : isSnapshot (sampleContent on (idOf 4)) = false := by
      rw [sampleContent, if_neg (by decide), if_pos rfl]
      rfl
    rw [hno] at hsnap
    cases hsnap

section

variable {on : UInt8} {B : List (List ObjectId)} {I : List ObjectId}

theorem inBatches_snoc : inBatches on (B ++ [I]) =
    ingest trustingCrypto (sampleContent on) id I (inBatches on B) := by
  rw [inBatches, List.foldl_append]
  rfl

theorem looseRun_snoc (h : LooseRun (sampleContent on) (inBatches on B))
    (hfirst : ∀ x ∈ [idOf 1, idOf on], x ∈ (inBatches on B).held ∨ x ∈ I)
    (hlookups : WithinLookups (sampleContent on) I)
    (hpending : (addAll (prepare trustingCrypto (sampleContent on) id I (inBatches on B)).pending
      (addAll [] (indexBatch trustingCrypto (sampleContent on) I
        (prepare trustingCrypto (sampleContent on) id I (inBatches on B))).inert)).length ≤
      maxPending) : LooseRun (sampleContent on) (inBatches on (B ++ [I])) := by
  rw [inBatches_snoc]
  exact .ingest h (sample_first hfirst) ⟨hlookups, hpending⟩

/-- Before signature 5 and any drop arrive, the order is the safe one. -/
theorem run_snoc (h : Run trustingCrypto (sampleContent on) id (inBatches on B))
    (hfirst : ∀ x ∈ [idOf 1, idOf on], x ∈ (inBatches on B).held ∨ x ∈ I)
    (hnosig : idOf 5 ∉ (inBatches on B).held) (hnodrop : (inBatches on B).drops = [])
    (hlookups : WithinLookups (sampleContent on) I)
    (hpending : (addAll (prepare trustingCrypto (sampleContent on) id I (inBatches on B)).pending
      (addAll [] (indexBatch trustingCrypto (sampleContent on) I
        (prepare trustingCrypto (sampleContent on) id I (inBatches on B))).inert)).length ≤
      maxPending) : Run trustingCrypto (sampleContent on) id (inBatches on (B ++ [I])) := by
  rw [inBatches_snoc]
  refine .ingest h ⟨(sample_first hfirst).snaps, fun x _ _ sid hsid hs => ?_, ?_⟩
    ⟨hlookups, hpending⟩
  · exact hnosig ((sample_target hs).1 ▸ hsid)
  · intro x _ _ t _ e he
    rw [hnodrop] at he
    cases he

end

/-- The transcript, then its signed drop. -/
theorem run_in_order : Run trustingCrypto (sampleContent 1) id
    (inBatches 1 [[idOf 1, idOf 3], [idOf 4, idOf 5]]) := by
  have hfirst := @run_snoc 1 [] [idOf 1, idOf 3] (.initial {[7]})
    (by decide +kernel) (by decide +kernel) (by decide +kernel) (by decide +kernel)
    (by decide +kernel)
  exact @run_snoc 1 [[idOf 1, idOf 3]] [idOf 4, idOf 5] hfirst
    (by decide +kernel) (by decide +kernel) (by decide +kernel) (by decide +kernel)
    (by decide +kernel)

theorem drops_converge_in_order :
    (idOf 1, idOf 3) ∈ listed (inBatches 1 [[idOf 1, idOf 3], [idOf 4, idOf 5]]) ↔
      (idOf 1, idOf 3) ∈ listed (reindex trustingCrypto (sampleContent 1) id
        (inBatches 1 [[idOf 1, idOf 3], [idOf 4, idOf 5]])) :=
  (drops_converge Function.injective_id).1 _ run_in_order (idOf 1, idOf 3)

theorem looseRun_first (on : UInt8) {I : List ObjectId}
    (hfirst : ∀ x ∈ [idOf 1, idOf on], x ∈ I) (hlookups : WithinLookups (sampleContent on) I)
    (hpending : (addAll (prepare trustingCrypto (sampleContent on) id I (inBatches on [])).pending
      (addAll [] (indexBatch trustingCrypto (sampleContent on) I
        (prepare trustingCrypto (sampleContent on) id I (inBatches on []))).inert)).length ≤
      maxPending) : LooseRun (sampleContent on) (inBatches on [I]) :=
  looseRun_snoc (B := []) (.initial {[7]}) (fun x hx => Or.inr (hfirst x hx)) hlookups hpending

/-- Two runs over the same objects that list the transcript differently. -/
theorem differ {on : UInt8} {B C : List (List ObjectId)}
    (hB : LooseRun (sampleContent on) (inBatches on B))
    (hC : LooseRun (sampleContent on) (inBatches on C))
    (hheld : (inBatches on B).held.Perm (inBatches on C).held)
    (htrusted : (inBatches on B).trusted = (inBatches on C).trusted)
    (hin : (idOf 1, idOf 3) ∈ listed (inBatches on B))
    (hout : (idOf 1, idOf 3) ∉ listed (inBatches on C)) :
    ¬ ∀ p q, LooseRun (sampleContent on) p → LooseRun (sampleContent on) q →
      (∀ id, id ∈ p.held ↔ id ∈ q.held) → p.trusted = q.trusted →
      ∀ e, e ∈ listed p ↔ e ∈ listed q := fun hall =>
  hout ((hall _ _ hB hC (fun _ => hheld.mem_iff) htrusted _).mp hin)

/-- The signature before its tombstone, and a drop ahead of a transcript of another snapshot. -/
theorem order_matters :
    (¬ ∀ p q, LooseRun (sampleContent 1) p → LooseRun (sampleContent 1) q →
      (∀ id, id ∈ p.held ↔ id ∈ q.held) → p.trusted = q.trusted →
      ∀ e, e ∈ listed p ↔ e ∈ listed q) ∧
    ¬ ∀ p q, LooseRun (sampleContent 2) p → LooseRun (sampleContent 2) q →
      (∀ id, id ∈ p.held ↔ id ∈ q.held) → p.trusted = q.trusted →
      ∀ e, e ∈ listed p ↔ e ∈ listed q := by
  constructor
  · have hbody := looseRun_first 1 (I := [idOf 1, idOf 3]) (by decide +kernel) (by decide +kernel)
      (by decide +kernel)
    have hsig := looseRun_snoc (I := [idOf 5]) hbody (by decide +kernel) (by decide +kernel)
      (by decide +kernel)
    have hlate := looseRun_snoc (I := [idOf 4]) hsig (by decide +kernel) (by decide +kernel)
      (by decide +kernel)
    have htogether := looseRun_snoc (I := [idOf 4, idOf 5]) hbody (by decide +kernel)
      (by decide +kernel) (by decide +kernel)
    exact differ hlate htogether (by decide +kernel) (by decide +kernel) (by decide +kernel)
      (by decide +kernel)
  · have hbody := looseRun_first 2 (I := [idOf 1, idOf 2, idOf 3]) (by decide +kernel)
      (by decide +kernel) (by decide +kernel)
    have hdropped := looseRun_snoc (I := [idOf 4, idOf 5]) hbody (by decide +kernel)
      (by decide +kernel) (by decide +kernel)
    have hahead := looseRun_first 2 (I := [idOf 1, idOf 2, idOf 4, idOf 5]) (by decide +kernel)
      (by decide +kernel) (by decide +kernel)
    have hnamed := looseRun_snoc (I := [idOf 3]) hahead (by decide +kernel) (by decide +kernel)
      (by decide +kernel)
    exact differ hdropped hnamed (by decide +kernel) (by decide +kernel) (by decide +kernel)
      (by decide +kernel)

end SrcControl.Transcripts
