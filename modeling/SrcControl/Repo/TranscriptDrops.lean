import SrcControl.Repo.Transcripts

/-!
# Drops and the order of arrival

What a store holds decides what its live index lists, whatever the order and the batches in
which it arrived: a batch considers every tombstone it brings and every tombstone one of its
signatures covers, and a change of trust judges the remembered ones again.
-/

namespace SrcControl.Transcripts

open Signatures

section

variable {F : Type} {cr : Crypto} {content : ObjectId → Object}
  {fp : Finset Signer → F}

/-- `id` is the tombstone `t` that drops `dropped`. -/
def IsTomb (content : ObjectId → Object) (id : ObjectId) (t : Transcript) (dropped : ObjectId) :
    Prop := content id = .transcript t ∧ t.droppedId = some dropped

/-- `id` is the real transcript `t`. -/
def IsBody (content : ObjectId → Object) (id : ObjectId) (t : Transcript) : Prop :=
  content id = .transcript t ∧ t.droppedId = none

theorem IsTomb.unique {id : ObjectId} {t t' : Transcript} {d d' : ObjectId}
    (h : IsTomb content id t d) (h' : IsTomb content id t' d') : t = t' ∧ d = d' := by
  obtain ⟨hc, hd⟩ := h
  obtain ⟨hc', hd'⟩ := h'
  rw [hc] at hc'
  cases hc'
  rw [hd] at hd'
  cases hd'
  exact ⟨rfl, rfl⟩

theorem IsBody.unique {id : ObjectId} {t t' : Transcript} (h : IsBody content id t)
    (h' : IsBody content id t') : t = t' := by
  have he := h.1.symm.trans h'.1
  cases he
  rfl

theorem IsBody.not_tomb {id d : ObjectId} {t t' : Transcript} (h : IsBody content id t)
    (h' : IsTomb content id t' d) : False := by
  obtain ⟨hc, hd⟩ := h
  obtain ⟨hc', hd'⟩ := h'
  rw [hc] at hc'
  cases hc'
  rw [hd] at hd'
  cases hd'

/-- Each entry names a held signature that verifies for its held target. -/
def SigsSound (cr : Crypto) (content : ObjectId → Object) (held : List ObjectId)
    (sigs : List Entry) : Prop :=
  ∀ e ∈ sigs, e.sig ∈ held ∧ e.target ∈ held ∧ ∃ s, content e.sig = .signature s ∧
    s.snapshot = e.target ∧ s.signer = e.signer ∧ verifies cr content s = true

/-- What a tombstone needs to be honoured. -/
structure Honored (content : ObjectId → Object) (p : Peer F) (tomb : ObjectId) (t : Transcript)
    (dropped : ObjectId) : Prop where
  snap : t.snapshot ∈ p.held
  isSnap : isSnapshot (content t.snapshot) = true
  fits : dropped ∈ p.held → ∃ b, IsBody content dropped b ∧ b.snapshot = t.snapshot
  signed : ∃ signer ∈ p.trusted, hasSlot p.sigs tomb signer = true

theorem fits_iff {held : List ObjectId} {snap dropped : ObjectId} :
    fits content held snap dropped = true ↔
      (dropped ∈ held → ∃ b, IsBody content dropped b ∧ b.snapshot = snap) := by
  by_cases hd : dropped ∈ held
  · simp only [fits, List.contains_iff_mem, hd, if_true, forall_const]
    constructor
    · intro h
      split at h
      · next b hb =>
        simp only [Bool.and_eq_true, Option.isNone_iff_eq_none, decide_eq_true_eq] at h
        exact ⟨b, ⟨hb, h.1⟩, h.2⟩
      · cases h
    · rintro ⟨b, ⟨hb, hn⟩, hsnap⟩
      simp [hb, hn, hsnap]
  · simp [fits, hd]

theorem signedBy_iff {held : List ObjectId} {sigs : List Entry} (hs : SigsSound cr content held sigs)
    {tomb dropped : ObjectId} {t : Transcript} (ht : IsTomb content tomb t dropped)
    {signer : Signer} :
    signedBy cr content sigs tomb signer = true ↔ hasSlot sigs tomb signer = true := by
  constructor
  · intro h
    unfold signedBy at h
    split at h
    · cases h
    · next sid hby => exact hasSlot_iff.mpr ⟨_, mem_of_by hby, rfl, rfl⟩
  · intro h
    obtain ⟨sid, hby⟩ := by_isSome h
    obtain ⟨-, -, s, hc, htarget, hsigner, hv⟩ := hs _ (mem_of_by hby)
    simp only at hc htarget hsigner
    have hverify : cr.verifyTranscriptSig s.signer (cr.dropDigest tomb) s.sig = true := by
      simpa [verifies, htarget, ht.1, ht.2] using hv
    subst hsigner
    simp [signedBy, hby, hc, hverify]

theorem honored_iff {p : Peer F} (hs : SigsSound cr content p.held p.sigs) {tomb dropped : ObjectId}
    {t : Transcript} (ht : IsTomb content tomb t dropped) :
    tombstoneHonored cr content p.held p.trusted p.sigs tomb t dropped = true ↔
      Honored content p tomb t dropped := by
  simp only [tombstoneHonored, Bool.and_eq_true, List.contains_iff_mem, fits_iff,
    decide_eq_true_eq, signedBy_iff hs ht]
  exact ⟨fun ⟨⟨⟨a, b⟩, c⟩, d⟩ => ⟨a, b, c, d⟩, fun ⟨a, b, c, d⟩ => ⟨⟨⟨a, b⟩, c⟩, d⟩⟩

/-! ### What a store has in order -/

/-- A drop that is justified by what the store holds. -/
structure Justified (content : ObjectId → Object) (p : Peer F) (e : DropEntry) : Prop where
  tomb : e.tomb ∈ p.held
  isTomb : ∃ t, IsTomb content e.tomb t e.dropped ∧ t.snapshot = e.snap
  snap : e.snap ∈ p.held
  isSnap : isSnapshot (content e.snap) = true
  signed : ∃ signer ∈ p.trusted, hasSlot p.sigs e.tomb signer = true
  fits : ∀ b, e.dropped ∈ p.held → IsBody content e.dropped b → b.snapshot = e.snap

/-- The drops and the pending list lag behind `done`: the tombstones outside it are settled. -/
structure Settled (content : ObjectId → Object) (p : Peer F) (id : ObjectId) : Prop where
  honored : ∀ t d, IsTomb content id t d → Honored content p id t d → ⟨t.snapshot, id, d⟩ ∈ p.drops
  remembered : ∀ t d, IsTomb content id t d → isSigned p.sigs id = true →
    id ∈ p.pending ∨ ⟨t.snapshot, id, d⟩ ∈ p.drops

structure Consistent (cr : Crypto) (content : ObjectId → Object) (fp : Finset Signer → F)
    (p : Peer F) : Prop where
  sound : SigsSound cr content p.held p.sigs
  complete : ∀ id ∈ p.held, ∀ s, content id = .signature s →
    acceptable cr content p.held s = true → hasSlot p.sigs s.snapshot s.signer = true
  snaps : ∀ id ∈ p.held, ∀ t, content id = .transcript t → t.snapshot ∈ p.held
  index : ∀ e ∈ p.index, e.2 ∈ p.held ∧ ∃ t, IsBody content e.2 t ∧ t.snapshot = e.1
  bodies : ∀ id ∈ p.held, ∀ t, IsBody content id t →
    (t.snapshot, id) ∈ p.index ∨ id ∈ droppedIds p
  drops : ∀ e ∈ p.drops, Justified content p e
  settled : ∀ id ∈ p.held, Settled content p id
  trust : ∀ f, p.pendingTrust = some f → ∃ T ⊆ p.trusted, f = fp T

theorem mem_droppedIds {p : Peer F} {id : ObjectId} :
    id ∈ droppedIds p ↔ ∃ e ∈ p.drops, e.dropped = id := by
  simp [droppedIds]

theorem mem_listed {p : Peer F} {e : ObjectId × ObjectId} :
    e ∈ listed p ↔ e ∈ p.index ∧ e.2 ∉ droppedIds p := by
  simp [listed]

/-- A body that an honoured tombstone names. -/
def Hidden (content : ObjectId → Object) (p : Peer F) (id : ObjectId) : Prop :=
  ∃ tomb ∈ p.held, ∃ t, IsTomb content tomb t id ∧ Honored content p tomb t id

/-- A consistent store lists the held bodies that no honoured tombstone names. -/
theorem mem_listed_iff {p : Peer F} (h : Consistent cr content fp p) {e : ObjectId × ObjectId} :
    e ∈ listed p ↔ e.2 ∈ p.held ∧ (∃ t, IsBody content e.2 t ∧ t.snapshot = e.1) ∧
      ¬ Hidden content p e.2 := by
  have hdropped : ∀ t, e.2 ∈ p.held → IsBody content e.2 t →
      (e.2 ∈ droppedIds p ↔ Hidden content p e.2) := by
    intro t hheld ht
    rw [mem_droppedIds]
    constructor
    · rintro ⟨d, hd, hid⟩
      obtain ⟨htomb, ⟨u, hu, husnap⟩, hsnap, hisSnap, hsigned, hfits⟩ := h.drops d hd
      rw [hid] at hu hfits
      have hbody : t.snapshot = d.snap := hfits t hheld ht
      refine ⟨d.tomb, htomb, u, hu, ?_, ?_, fun _ => ⟨t, ht, hbody.trans husnap.symm⟩, hsigned⟩
      · rw [husnap]
        exact hsnap
      · rw [husnap]
        exact hisSnap
    · rintro ⟨tomb, htomb, u, hu, hhon⟩
      exact ⟨_, (h.settled tomb htomb).honored u e.2 hu hhon, rfl⟩
  rw [mem_listed]
  constructor
  · rintro ⟨hmem, hnot⟩
    obtain ⟨hheld, t, ht, hsnap⟩ := h.index e hmem
    exact ⟨hheld, ⟨t, ht, hsnap⟩, fun hh => hnot ((hdropped t hheld ht).mpr hh)⟩
  · rintro ⟨hheld, ⟨t, ht, hsnap⟩, hnot⟩
    have hnd : e.2 ∉ droppedIds p := fun hd => hnot ((hdropped t hheld ht).mp hd)
    refine ⟨?_, hnd⟩
    rcases h.bodies e.2 hheld t ht with hi | hd
    · rw [hsnap] at hi
      exact hi
    · exact absurd hd hnd

/-! ### The pieces of a batch -/

@[simp] theorem appendDrop_held (e : DropEntry) (p : Peer F) : (appendDrop e p).held = p.held := by
  unfold appendDrop
  split <;> rfl

@[simp] theorem appendDrop_sigs (e : DropEntry) (p : Peer F) : (appendDrop e p).sigs = p.sigs := by
  unfold appendDrop
  split <;> rfl

@[simp] theorem appendDrop_index (e : DropEntry) (p : Peer F) :
    (appendDrop e p).index = p.index := by
  unfold appendDrop
  split <;> rfl

@[simp] theorem appendDrop_pending (e : DropEntry) (p : Peer F) :
    (appendDrop e p).pending = p.pending := by
  unfold appendDrop
  split <;> rfl

@[simp] theorem appendDrop_pendingTrust (e : DropEntry) (p : Peer F) :
    (appendDrop e p).pendingTrust = p.pendingTrust := by
  unfold appendDrop
  split <;> rfl

@[simp] theorem appendDrop_trusted (e : DropEntry) (p : Peer F) :
    (appendDrop e p).trusted = p.trusted := by
  unfold appendDrop
  split <;> rfl

theorem mem_appendDrop {e x : DropEntry} {p : Peer F} :
    x ∈ (appendDrop e p).drops ↔ x ∈ p.drops ∨ x = e := by
  unfold appendDrop
  split
  · next h =>
    rw [List.contains_iff_mem] at h
    exact ⟨Or.inl, fun hx => hx.elim id fun hx => hx ▸ h⟩
  · simp

theorem droppedIds_appendDrop {e : DropEntry} {p : Peer F} {id : ObjectId}
    (h : id ∈ droppedIds p) : id ∈ droppedIds (appendDrop e p) := by
  obtain ⟨x, hx, he⟩ := mem_droppedIds.mp h
  exact mem_droppedIds.mpr ⟨x, mem_appendDrop.mpr (Or.inl hx), he⟩

/-- What a signature object in a batch covers. -/
def sigTarget (content : ObjectId → Object) (id : ObjectId) : Option ObjectId :=
  match content id with
  | .signature s => some s.snapshot
  | _ => none

theorem sigTarget_eq_some {id target : ObjectId} :
    sigTarget content id = some target ↔ ∃ s, content id = .signature s ∧ s.snapshot = target := by
  unfold sigTarget
  split
  · next s hs => simp [hs]
  · next hne =>
    constructor
    · intro h
      cases h
    · rintro ⟨s, hs, -⟩
      exact absurd hs (hne s)

/-- A considered tombstone is recorded, or not honoured and noted. -/
def Considered (content : ObjectId → Object) (p : Peer F) (b : Batch F) (id : ObjectId) : Prop :=
  ∀ t d, IsTomb content id t d → (∃ e ∈ b.peer.drops, e.tomb = id) ∨
    (¬ Honored content p id t d ∧ (isSigned p.sigs id = true → t.snapshot ∈ p.held → id ∈ b.inert))

/-- How far a batch over `p` is after the objects `done`. -/
structure BatchOk (content : ObjectId → Object) (p : Peer F) (done : List ObjectId)
    (b : Batch F) : Prop where
  held : b.peer.held = p.held
  sigs : b.peer.sigs = p.sigs
  trusted : b.peer.trusted = p.trusted
  pending : b.peer.pending = p.pending
  pendingTrust : b.peer.pendingTrust = p.pendingTrust
  dropsMono : p.drops ⊆ b.peer.drops
  drops : ∀ e ∈ b.peer.drops, e ∈ p.drops ∨ e.tomb ∈ p.held ∧
    ∃ t, IsTomb content e.tomb t e.dropped ∧ t.snapshot = e.snap ∧
      Honored content p e.tomb t e.dropped
  recorded : ∀ x ∈ b.recorded, ∃ e ∈ b.peer.drops, e.tomb = x
  considered : ∀ x ∈ b.considered, Considered content p b x
  tombs : ∀ x ∈ done, ∀ t d, IsTomb content x t d → x ∈ b.considered
  lookedUp : ∀ x ∈ b.lookedUp, x ∈ p.held → ∀ t d, IsTomb content x t d → x ∈ b.considered
  covers : ∀ x ∈ done, ∀ target, sigTarget content x = some target →
    target ∈ b.considered ∨ target ∈ b.lookedUp
  index : ∀ e ∈ b.peer.index, e ∈ p.index ∨
    e.2 ∈ done ∧ ∃ t, IsBody content e.2 t ∧ t.snapshot = e.1
  kept : ∀ e ∈ p.index, e ∈ b.peer.index ∨ e.2 ∈ droppedIds b.peer
  bodies : ∀ x ∈ done, ∀ t, IsBody content x t →
    (t.snapshot, x) ∈ b.peer.index ∨ x ∈ droppedIds b.peer
  bound : b.lookups ≤ b.lookedUp.length
  nodup : b.lookedUp.Nodup
  targets : ∀ x ∈ b.lookedUp, ∃ y ∈ done, sigTarget content y = some x

theorem BatchOk.start (p : Peer F) : BatchOk content p [] (.start p) where
  held := rfl
  sigs := rfl
  trusted := rfl
  pending := rfl
  pendingTrust := rfl
  dropsMono := List.Subset.refl _
  drops _ he := Or.inl he
  recorded x hx := by simpa [Batch.start] using hx
  considered x hx := by simp [Batch.start] at hx
  tombs x hx := by simp at hx
  lookedUp x hx := by simp [Batch.start] at hx
  covers x hx := by simp at hx
  index _ he := Or.inl he
  kept _ he := Or.inl he
  bodies x hx := by simp at hx
  bound := Nat.le_refl _
  nodup := List.nodup_nil
  targets x hx := by simp [Batch.start] at hx

theorem Considered.mono {p : Peer F} {b b' : Batch F} {id : ObjectId}
    (h : Considered content p b id) (hd : b.peer.drops ⊆ b'.peer.drops) (hi : b.inert ⊆ b'.inert) :
    Considered content p b' id := by
  intro t d ht
  rcases h t d ht with ⟨e, he, hid⟩ | ⟨hn, hs⟩
  · exact Or.inl ⟨e, hd he, hid⟩
  · exact Or.inr ⟨hn, fun h1 h2 => hi (hs h1 h2)⟩

/-- Considering one more tombstone. -/
theorem consider_ok {p : Peer F} {done : List ObjectId} {b : Batch F}
    (h : BatchOk content p done b) (hs : SigsSound cr content p.held p.sigs) {x d : ObjectId}
    {t : Transcript} (hx : x ∈ p.held) (ht : IsTomb content x t d) :
    BatchOk content p done (consider cr content x t d b) ∧
      x ∈ (consider cr content x t d b).considered ∧
      b.considered ⊆ (consider cr content x t d b).considered ∧
      (consider cr content x t d b).lookedUp = b.lookedUp := by
  have hiff := honored_iff hs ht
  -- One more considered tombstone, with what the verdict on it left.
  have hmark : ∀ b' : Batch F, b'.peer = b.peer → b'.recorded = b.recorded →
      b.inert ⊆ b'.inert → b'.considered = x :: b.considered → b'.lookedUp = b.lookedUp →
      b'.lookups = b.lookups → Considered content p b' x → BatchOk content p done b' := by
    intro b' hpeer hrec hinert hcons hlook hlookups hset
    have hsub : b.considered ⊆ b'.considered := by
      rw [hcons]
      exact List.subset_cons_self _ _
    refine ⟨by rw [hpeer, h.held], by rw [hpeer, h.sigs], by rw [hpeer, h.trusted],
      by rw [hpeer, h.pending], by rw [hpeer, h.pendingTrust], by rw [hpeer]; exact h.dropsMono,
      by rw [hpeer]; exact h.drops, by rw [hpeer, hrec]; exact h.recorded, ?_,
      fun y hy u e hu => hsub (h.tombs y hy u e hu), ?_, ?_, by rw [hpeer]; exact h.index,
      by rw [hpeer]; exact h.kept, by rw [hpeer]; exact h.bodies, by rw [hlookups, hlook]; exact h.bound,
      by rw [hlook]; exact h.nodup, by rw [hlook]; exact h.targets⟩
    · intro y hy
      rw [hcons] at hy
      rcases List.mem_cons.mp hy with rfl | hy
      · exact hset
      · exact (h.considered y hy).mono (by rw [hpeer]; exact List.Subset.refl _) hinert
    · intro y hy hheld u e hu
      rw [hlook] at hy
      exact hsub (h.lookedUp y hy hheld u e hu)
    · intro y hy target htarget
      rw [hlook]
      exact (h.covers y hy target htarget).imp_left fun hc => hsub hc
  unfold consider
  simp only
  split
  · next hrec =>
    rw [List.contains_iff_mem] at hrec
    exact ⟨hmark _ rfl rfl (List.Subset.refl _) rfl rfl rfl
      fun _ _ _ => Or.inl (h.recorded x hrec), by simp, List.subset_cons_self _ _, rfl⟩
  · rw [h.held, h.sigs, h.trusted]
    split
    · next hhon =>
      have hhon := hiff.mp hhon
      have hmono : b.peer.drops ⊆ (appendDrop ⟨t.snapshot, x, d⟩ b.peer).drops :=
        fun e he => mem_appendDrop.mpr (Or.inl he)
      have hnew : (⟨t.snapshot, x, d⟩ : DropEntry) ∈
          (appendDrop ⟨t.snapshot, x, d⟩ b.peer).drops := mem_appendDrop.mpr (Or.inr rfl)
      refine ⟨⟨by simp [h.held], by simp [h.sigs], by simp [h.trusted], by simp [h.pending],
        by simp [h.pendingTrust], List.Subset.trans h.dropsMono hmono, ?_, ?_, ?_,
        fun y hy u e hu => List.mem_cons_of_mem _ (h.tombs y hy u e hu),
        fun y hy hheld u e hu => List.mem_cons_of_mem _ (h.lookedUp y hy hheld u e hu),
        fun y hy target htarget =>
          (h.covers y hy target htarget).imp_left (List.mem_cons_of_mem _), ?_, ?_, ?_,
        h.bound, h.nodup, h.targets⟩, by simp, List.subset_cons_self _ _, rfl⟩
      · intro e he
        rcases mem_appendDrop.mp he with he | rfl
        · exact h.drops e he
        · exact Or.inr ⟨hx, t, ht, rfl, hhon⟩
      · intro y hy
        rcases List.mem_cons.mp hy with rfl | hy
        · exact ⟨_, hnew, rfl⟩
        · obtain ⟨e, he, hid⟩ := h.recorded y hy
          exact ⟨e, hmono he, hid⟩
      · intro y hy
        rcases List.mem_cons.mp hy with rfl | hy
        · exact fun _ _ _ => Or.inl ⟨_, hnew, rfl⟩
        · exact (h.considered y hy).mono hmono (List.Subset.refl _)
      · intro e he
        exact h.index e (by simpa using he)
      · intro e he
        exact (h.kept e he).imp (by simp) fun hd => droppedIds_appendDrop hd
      · intro y hy u hu
        exact (h.bodies y hy u hu).imp (by simp) fun hd => droppedIds_appendDrop hd
    · next hhon =>
      have hnot : ∀ u e, IsTomb content x u e → ¬ Honored content p x u e := by
        intro u e hu hh
        obtain ⟨rfl, rfl⟩ := hu.unique ht
        exact hhon (hiff.mpr hh)
      split
      · exact ⟨hmark _ rfl rfl (List.subset_append_left _ _) rfl rfl rfl
          fun u e hu => Or.inr ⟨hnot u e hu, fun _ _ => by simp⟩, by simp,
          List.subset_cons_self _ _, rfl⟩
      · next hsigned =>
        refine ⟨hmark _ rfl rfl (List.Subset.refl _) rfl rfl rfl fun u e hu =>
          Or.inr ⟨hnot u e hu, fun h1 h2 => ?_⟩, by simp, List.subset_cons_self _ _, rfl⟩
        obtain ⟨rfl, -⟩ := hu.unique ht
        exact absurd (by simp [h1, h2]) hsigned

theorem mem_appendIndex {snap tid : ObjectId} {p : Peer F} {e : ObjectId × ObjectId}
    (h : e ∈ (appendIndex snap tid p).index) : e ∈ p.index ∨ e = (snap, tid) := by
  unfold appendIndex at h
  split at h
  · exact Or.inl h
  · split at h
    · exact Or.inl h
    · rcases List.mem_append.mp h with h | h
      · exact Or.inl (mem_listed.mp h).1
      · exact Or.inr (List.mem_singleton.mp h)

@[simp] theorem appendIndex_drops (snap tid : ObjectId) (p : Peer F) :
    (appendIndex snap tid p).drops = p.drops := by
  unfold appendIndex
  split
  · rfl
  · split <;> rfl

theorem appendIndex_kept (snap tid : ObjectId) {p : Peer F} {e : ObjectId × ObjectId}
    (h : e ∈ p.index) : e ∈ (appendIndex snap tid p).index ∨ e.2 ∈ droppedIds p := by
  by_cases hd : e.2 ∈ droppedIds p
  · exact Or.inr hd
  · left
    unfold appendIndex
    split
    · exact h
    · split
      · exact h
      · exact List.mem_append_left _ (mem_listed.mpr ⟨h, hd⟩)

theorem appendIndex_added (snap tid : ObjectId) (p : Peer F) :
    (snap, tid) ∈ (appendIndex snap tid p).index ∨ tid ∈ droppedIds p := by
  unfold appendIndex
  split
  · next hd => exact Or.inr (by simpa using hd)
  · split
    · next hl => exact Or.inl (mem_listed.mp (by simpa using hl)).1
    · exact Or.inl (by simp)

theorem appendIndex_frame (snap tid : ObjectId) (p : Peer F) :
    (appendIndex snap tid p).held = p.held ∧ (appendIndex snap tid p).sigs = p.sigs ∧
      (appendIndex snap tid p).trusted = p.trusted ∧
      (appendIndex snap tid p).pending = p.pending ∧
      (appendIndex snap tid p).pendingTrust = p.pendingTrust := by
  unfold appendIndex
  split
  · exact ⟨rfl, rfl, rfl, rfl, rfl⟩
  · split <;> exact ⟨rfl, rfl, rfl, rfl, rfl⟩

theorem droppedIds_appendIndex (snap tid : ObjectId) (p : Peer F) :
    droppedIds (appendIndex snap tid p) = droppedIds p := by
  rw [droppedIds, appendIndex_drops, droppedIds]

theorem mem_snoc {done : List ObjectId} {x y : ObjectId} : y ∈ done ++ [x] ↔ y ∈ done ∨ y = x := by
  simp

/-- One more object that is neither a tombstone nor a body, and covers what is accounted for. -/
theorem BatchOk.skip {p : Peer F} {done : List ObjectId} {b : Batch F} (h : BatchOk content p done b)
    {x : ObjectId} (htomb : ∀ t d, IsTomb content x t d → x ∈ b.considered)
    (hcov : ∀ target, sigTarget content x = some target →
      target ∈ b.considered ∨ target ∈ b.lookedUp)
    (hbody : ∀ t, ¬ IsBody content x t) : BatchOk content p (done ++ [x]) b := by
  refine { h with
    tombs := fun y hy t d ht => ?_
    covers := fun y hy target htarget => ?_
    index := fun e he => ?_
    bodies := fun y hy t ht => ?_
    targets := fun y hy => ?_ }
  · rcases mem_snoc.mp hy with hy | rfl
    · exact h.tombs y hy t d ht
    · exact htomb t d ht
  · rcases mem_snoc.mp hy with hy | rfl
    · exact h.covers y hy target htarget
    · exact hcov target htarget
  · exact (h.index e he).imp_right fun ⟨hd, ht⟩ => ⟨mem_snoc.mpr (Or.inl hd), ht⟩
  · rcases mem_snoc.mp hy with hy | rfl
    · exact h.bodies y hy t ht
    · exact absurd ht (hbody t)
  · obtain ⟨z, hz, hs⟩ := h.targets y hy
    exact ⟨z, mem_snoc.mpr (Or.inl hz), hs⟩

/-- One more real transcript. -/
theorem BatchOk.body {p : Peer F} {done : List ObjectId} {b : Batch F} (h : BatchOk content p done b)
    {x : ObjectId} {t : Transcript} (ht : IsBody content x t) :
    BatchOk content p (done ++ [x]) { b with peer := appendIndex t.snapshot x b.peer } := by
  obtain ⟨hheld, hsigs, htrusted, hpending, htrust⟩ := appendIndex_frame t.snapshot x b.peer
  have hnosig : sigTarget content x = none := by rw [sigTarget, ht.1]
  refine ⟨by rw [hheld, h.held], by rw [hsigs, h.sigs], by rw [htrusted, h.trusted],
    by rw [hpending, h.pending], by rw [htrust, h.pendingTrust],
    by rw [appendIndex_drops]; exact h.dropsMono, by rw [appendIndex_drops]; exact h.drops,
    by rw [appendIndex_drops]; exact h.recorded, ?_, ?_, h.lookedUp, ?_, ?_, ?_, ?_, h.bound,
    h.nodup, ?_⟩
  · intro y hy
    exact (h.considered y hy).mono (by rw [appendIndex_drops]; exact List.Subset.refl _)
      (List.Subset.refl _)
  · intro y hy u d hu
    rcases mem_snoc.mp hy with hy | rfl
    · exact h.tombs y hy u d hu
    · exact (ht.not_tomb hu).elim
  · intro y hy target htarget
    rcases mem_snoc.mp hy with hy | rfl
    · exact h.covers y hy target htarget
    · rw [hnosig] at htarget
      cases htarget
  · intro e he
    rcases mem_appendIndex he with he | rfl
    · exact (h.index e he).imp_right fun ⟨hd, ht⟩ => ⟨mem_snoc.mpr (Or.inl hd), ht⟩
    · exact Or.inr ⟨by simp, t, ht, rfl⟩
  · intro e he
    rw [droppedIds_appendIndex]
    rcases h.kept e he with he | he
    · exact appendIndex_kept _ _ he
    · exact Or.inr he
  · intro y hy u hu
    rw [droppedIds_appendIndex]
    rcases mem_snoc.mp hy with hy | rfl
    · rcases h.bodies y hy u hu with hi | hd
      · exact appendIndex_kept _ _ hi
      · exact Or.inr hd
    · rw [hu.unique ht]
      exact appendIndex_added _ _ _
  · intro y hy
    obtain ⟨z, hz, hs⟩ := h.targets y hy
    exact ⟨z, mem_snoc.mpr (Or.inl hz), hs⟩

/-- At most `maxSigLookups` distinct targets are covered by the batch's signatures. -/
def WithinLookups (content : ObjectId → Object) (ids : List ObjectId) : Prop :=
  (ids.filterMap (sigTarget content)).dedup.length ≤ maxSigLookups

instance (ids : List ObjectId) : Decidable (WithinLookups content ids) :=
  inferInstanceAs (Decidable (_ ≤ _))

theorem lookups_lt {p : Peer F} {ids done : List ObjectId} {b : Batch F}
    (hlim : WithinLookups content ids) (h : BatchOk content p done b) (hdone : done ⊆ ids)
    {x target : ObjectId} (hx : x ∈ ids) (htarget : sigTarget content x = some target)
    (hnew : target ∉ b.lookedUp) : b.lookups < maxSigLookups := by
  have hnodup : (target :: b.lookedUp).Nodup := List.nodup_cons.mpr ⟨hnew, h.nodup⟩
  have hsub : target :: b.lookedUp ⊆ (ids.filterMap (sigTarget content)).dedup := by
    intro y hy
    rw [List.mem_dedup, List.mem_filterMap]
    rcases List.mem_cons.mp hy with rfl | hy
    · exact ⟨x, hx, htarget⟩
    · obtain ⟨z, hz, hs⟩ := h.targets y hy
      exact ⟨z, hdone hz, hs⟩
  have hlen := (List.subperm_of_subset hnodup hsub).length_le
  rw [List.length_cons] at hlen
  have hbound := h.bound
  unfold WithinLookups at hlim
  omega

/-- A signature's target is looked at once. -/
theorem lookUp_ok {p : Peer F} {done : List ObjectId} {b : Batch F} (h : BatchOk content p done b)
    (hs : SigsSound cr content p.held p.sigs) {x target : ObjectId}
    (htarget : sigTarget content x = some target) (hnew : target ∉ b.lookedUp) :
    BatchOk content p (done ++ [x]) (lookUp cr content target b) := by
  obtain ⟨s, hsig, -⟩ := sigTarget_eq_some.mp htarget
  have hnotomb : ∀ t d, ¬ IsTomb content x t d := by
    rintro t d ⟨hc, -⟩
    rw [hsig] at hc
    cases hc
  have hnobody : ∀ t, ¬ IsBody content x t := by
    rintro t ⟨hc, -⟩
    rw [hsig] at hc
    cases hc
  -- The target is noted as looked up; `n` lookups are counted.
  have hnoted : ∀ n ≤ b.lookups + 1, (target ∈ p.held → ∀ t d, ¬ IsTomb content target t d) →
      BatchOk content p (done ++ [x])
        { b with lookedUp := target :: b.lookedUp, lookups := n } := by
    intro n hn hnone
    refine ⟨h.held, h.sigs, h.trusted, h.pending, h.pendingTrust, h.dropsMono, h.drops, h.recorded,
      h.considered, ?_, ?_, ?_, ?_, h.kept, ?_, ?_, List.nodup_cons.mpr ⟨hnew, h.nodup⟩, ?_⟩
    · intro y hy t d ht
      rcases mem_snoc.mp hy with hy | rfl
      · exact h.tombs y hy t d ht
      · exact absurd ht (hnotomb t d)
    · intro y hy hheld t d ht
      rcases List.mem_cons.mp hy with rfl | hy
      · exact absurd ht (hnone hheld t d)
      · exact h.lookedUp y hy hheld t d ht
    · intro y hy z hz
      rcases mem_snoc.mp hy with hy | rfl
      · exact (h.covers y hy z hz).imp_right (List.mem_cons_of_mem _)
      · rw [htarget] at hz
        cases hz
        exact Or.inr List.mem_cons_self
    · intro e he
      exact (h.index e he).imp_right fun ⟨hd, ht⟩ => ⟨mem_snoc.mpr (Or.inl hd), ht⟩
    · intro y hy t ht
      rcases mem_snoc.mp hy with hy | rfl
      · exact h.bodies y hy t ht
      · exact absurd ht (hnobody t)
    · have hbound := h.bound
      rw [List.length_cons]
      simp only
      omega
    · intro y hy
      rcases List.mem_cons.mp hy with rfl | hy
      · exact ⟨x, by simp, htarget⟩
      · obtain ⟨z, hz, hz'⟩ := h.targets y hy
        exact ⟨z, mem_snoc.mpr (Or.inl hz), hz'⟩
  unfold lookUp
  simp only
  split
  · next hheld =>
    rw [List.contains_iff_mem, h.held] at hheld
    split
    · next t hc =>
      split
      · next d hd =>
        -- The target is a held tombstone.
        have ht : IsTomb content target t d := ⟨hc, hd⟩
        obtain ⟨hok, hmem, hsub, hlook⟩ := consider_ok h hs hheld ht
        have hcons : ∀ b₀ : Batch F, b₀.peer = b.peer → b₀.recorded = b.recorded →
            b₀.inert = b.inert → b₀.considered = b.considered →
            (consider cr content target t d b₀).peer = (consider cr content target t d b).peer ∧
            (consider cr content target t d b₀).recorded =
              (consider cr content target t d b).recorded ∧
            (consider cr content target t d b₀).inert = (consider cr content target t d b).inert ∧
            (consider cr content target t d b₀).considered =
              (consider cr content target t d b).considered ∧
            (consider cr content target t d b₀).lookedUp = b₀.lookedUp ∧
            (consider cr content target t d b₀).lookups = b₀.lookups := by
          intro b₀ hp hr hi hc
          unfold consider
          simp only [hp, hr, hi, hc]
          split
          · exact ⟨rfl, rfl, rfl, rfl, rfl, rfl⟩
          · split
            · exact ⟨rfl, rfl, rfl, rfl, rfl, rfl⟩
            · split <;> exact ⟨rfl, rfl, rfl, rfl, rfl, rfl⟩
        obtain ⟨hp, hr, hi, hc', hl, hn⟩ := hcons
          { b with lookedUp := target :: b.lookedUp, lookups := b.lookups + 1 } rfl rfl rfl rfl
        refine ⟨by rw [hp, hok.held], by rw [hp, hok.sigs], by rw [hp, hok.trusted],
          by rw [hp, hok.pending], by rw [hp, hok.pendingTrust], by rw [hp]; exact hok.dropsMono,
          by rw [hp]; exact hok.drops, by rw [hp, hr]; exact hok.recorded, ?_, ?_, ?_, ?_, ?_,
          by rw [hp]; exact hok.kept, ?_, ?_, ?_, ?_⟩
        · intro y hy
          rw [hc'] at hy
          exact (hok.considered y hy).mono (by rw [hp]; exact List.Subset.refl _)
            (by rw [hi]; exact List.Subset.refl _)
        · intro y hy u e hu
          rw [hc']
          rcases mem_snoc.mp hy with hy | rfl
          · exact hok.tombs y hy u e hu
          · exact absurd hu (hnotomb u e)
        · intro y hy hyheld u e hu
          rw [hc']
          rw [hl] at hy
          rcases List.mem_cons.mp hy with rfl | hy
          · exact hmem
          · exact hsub (h.lookedUp y hy hyheld u e hu)
        · intro y hy z hz
          rw [hc', hl]
          rcases mem_snoc.mp hy with hy | rfl
          · exact (h.covers y hy z hz).imp (fun hc => hsub hc) (List.mem_cons_of_mem _)
          · rw [htarget] at hz
            cases hz
            exact Or.inl hmem
        · intro e he
          rw [hp] at he
          exact (hok.index e he).imp_right fun ⟨hd, ht⟩ => ⟨mem_snoc.mpr (Or.inl hd), ht⟩
        · intro y hy u hu
          rw [hp]
          rcases mem_snoc.mp hy with hy | rfl
          · exact hok.bodies y hy u hu
          · exact absurd hu (hnobody u)
        · have hbound := h.bound
          rw [hl, hn, List.length_cons]
          simp only
          omega
        · rw [hl]
          exact List.nodup_cons.mpr ⟨hnew, h.nodup⟩
        · intro y hy
          rw [hl] at hy
          rcases List.mem_cons.mp hy with rfl | hy
          · exact ⟨x, by simp, htarget⟩
          · obtain ⟨z, hz, hz'⟩ := h.targets y hy
            exact ⟨z, mem_snoc.mpr (Or.inl hz), hz'⟩
      · next hd =>
        refine hnoted _ (Nat.le_refl _) fun _ u e hu => ?_
        obtain ⟨hc', hd'⟩ := hu
        rw [hc] at hc'
        cases hc'
        rw [hd] at hd'
        cases hd'
    · next hne =>
      exact hnoted _ (Nat.le_refl _) fun _ u e hu => hne u hu.1
  · next hheld =>
    refine hnoted _ (Nat.le_succ _) fun hh => absurd ?_ hheld
    rw [List.contains_iff_mem, h.held]
    exact hh

theorem indexOne_ok {p : Peer F} {ids done : List ObjectId} {b : Batch F}
    (h : BatchOk content p done b) (hs : SigsSound cr content p.held p.sigs)
    (hlim : WithinLookups content ids) (hdone : done ⊆ ids) {x : ObjectId} (hx : x ∈ ids)
    (hheld : x ∈ p.held) : BatchOk content p (done ++ [x]) (indexOne cr content b x) := by
  unfold indexOne
  split
  · next t hc =>
    have hnosig : ∀ target, sigTarget content x ≠ some target := by
      intro target
      simp [sigTarget, hc]
    split
    · next d hd =>
      have ht : IsTomb content x t d := ⟨hc, hd⟩
      split
      · next hcons =>
        exact h.skip (fun _ _ _ => by simpa using hcons)
          (fun target htarget => absurd htarget (hnosig target)) fun u hu => hu.not_tomb ht
      · obtain ⟨hok, hmem, -, -⟩ := consider_ok h hs hheld ht
        exact hok.skip (fun _ _ _ => hmem)
          (fun target htarget => absurd htarget (hnosig target)) fun u hu => hu.not_tomb ht
    · next hd => exact h.body ⟨hc, hd⟩
  · next s hc =>
    have htarget : sigTarget content x = some s.snapshot := by rw [sigTarget, hc]
    split
    · next hcond => exact lookUp_ok h hs htarget hcond.2.2
    · next hcond =>
      refine h.skip ?_ ?_ ?_
      · rintro t d ⟨hc', -⟩
        rw [hc] at hc'
        cases hc'
      · intro target ht
        rw [htarget] at ht
        cases ht
        by_cases hlook : s.snapshot ∈ b.lookedUp
        · exact Or.inr hlook
        · refine Or.inl (Classical.not_not.mp fun hn => hcond ⟨?_, hn, hlook⟩)
          exact lookups_lt hlim h hdone hx htarget hlook
      · rintro t ⟨hc', -⟩
        rw [hc] at hc'
        cases hc'
  · next hnt hns =>
    refine h.skip ?_ ?_ ?_
    · rintro t d ⟨hc', -⟩
      exact absurd hc' (hnt t)
    · intro target ht
      obtain ⟨s, hs', -⟩ := sigTarget_eq_some.mp ht
      exact absurd hs' (hns s)
    · rintro t ⟨hc', -⟩
      exact absurd hc' (hnt t)

theorem indexBatch_ok {p : Peer F} {ids : List ObjectId} (hs : SigsSound cr content p.held p.sigs)
    (hlim : WithinLookups content ids) (hheld : ids ⊆ p.held) :
    BatchOk content p ids (indexBatch cr content ids p) := by
  have hfold : ∀ rest done b, done ++ rest = ids → BatchOk content p done b →
      BatchOk content p ids (rest.foldl (indexOne cr content) b) := by
    intro rest
    induction rest with
    | nil =>
      intro done b hids hb
      rw [List.append_nil] at hids
      exact hids ▸ hb
    | cons x rest ih =>
      intro done b hids hb
      have hx : x ∈ ids := hids ▸ by simp
      have hdone : done ⊆ ids := hids ▸ List.subset_append_left _ _
      exact ih (done ++ [x]) _ (by simpa using hids)
        (indexOne_ok hb hs hlim hdone hx (hheld hx))
  exact hfold ids [] _ rfl (.start p)

/-! ### The pending list -/

theorem mem_addAll {all new : List ObjectId} {x : ObjectId} :
    x ∈ addAll all new ↔ x ∈ all ∨ x ∈ new := by
  induction new generalizing all with
  | nil => simp [addAll]
  | cons y new ih =>
    have hstep : addAll all (y :: new) = addAll (if all.contains y then all else all ++ [y]) new := rfl
    rw [hstep, ih]
    split
    · next hy =>
      rw [List.contains_iff_mem] at hy
      rw [List.mem_cons]
      constructor
      · exact fun h => h.imp_right Or.inr
      · rintro (h | rfl | h)
        · exact Or.inl h
        · exact Or.inl hy
        · exact Or.inr h
    · simp [or_assoc]

theorem nodup_addAll {all : List ObjectId} (new : List ObjectId) (h : all.Nodup) :
    (addAll all new).Nodup := by
  induction new generalizing all with
  | nil => exact h
  | cons y new ih =>
    have hstep : (if all.contains y then all else all ++ [y]).Nodup := by
      split
      · exact h
      · next hy =>
        rw [List.contains_iff_mem] at hy
        refine List.nodup_append.mpr ⟨h, by simp, fun a ha b hb => ?_⟩
        rw [List.mem_singleton.mp hb]
        rintro rfl
        exact hy ha
    exact ih hstep

theorem newest_eq {n : Nat} {ids : List ObjectId} (h : ids.length ≤ n) : newest n ids = ids := by
  rw [newest, Nat.sub_eq_zero_of_le h, List.drop_zero]

/-- Below the limit, nothing remembered is forgotten. -/
theorem notePending_ok (fp : Finset Signer → F) {p : Peer F} {new : List ObjectId}
    (hlim : (addAll p.pending (addAll [] new)).length ≤ maxPending) :
    (notePending fp new p).held = p.held ∧ (notePending fp new p).sigs = p.sigs ∧
      (notePending fp new p).index = p.index ∧ (notePending fp new p).drops = p.drops ∧
      (notePending fp new p).trusted = p.trusted ∧
      (∀ x, x ∈ p.pending ∨ x ∈ new → x ∈ (notePending fp new p).pending) ∧
      ((notePending fp new p).pendingTrust = p.pendingTrust ∨
        (notePending fp new p).pendingTrust = some (fp p.trusted)) := by
  have honce : (addAll [] new).length ≤ maxPending := by
    have hsub : addAll [] new ⊆ addAll p.pending (addAll [] new) := fun x hx =>
      mem_addAll.mpr (Or.inr hx)
    exact (List.subperm_of_subset (nodup_addAll new List.nodup_nil) hsub).length_le.trans hlim
  have hsame : ∀ x, x ∈ addAll p.pending (addAll [] new) ↔ x ∈ p.pending ∨ x ∈ new := by
    intro x
    rw [mem_addAll, mem_addAll]
    simp
  unfold notePending
  split
  · next hnil =>
    subst hnil
    exact ⟨rfl, rfl, rfl, rfl, rfl, fun x hx => hx.resolve_right (by simp), Or.inl rfl⟩
  · simp only [newest_eq honce]
    split
    · next hall =>
      refine ⟨rfl, rfl, rfl, rfl, rfl, fun x hx => ?_, Or.inl rfl⟩
      rw [← hall]
      exact (hsame x).mpr hx
    · next hall =>
      have hne : addAll p.pending (addAll [] new) ≠ [] := by
        intro he
        have hp : p.pending = [] := by
          cases hpp : p.pending with
          | nil => rfl
          | cons y ys =>
            have hy := (hsame y).mpr (Or.inl (by rw [hpp]; simp))
            rw [he] at hy
            cases hy
        exact hall (he.trans hp.symm)
      simp only [newest_eq hlim, writePending, if_neg hne]
      split
      · exact ⟨rfl, rfl, rfl, rfl, rfl, fun x hx => (hsame x).mpr hx, Or.inr rfl⟩
      · exact ⟨rfl, rfl, rfl, rfl, rfl, fun x hx => (hsame x).mpr hx, Or.inl rfl⟩

/-! ### Judging the pending list again -/

/-- What a re-evaluation of `p` may have changed in `q`. -/
structure Judged (content : ObjectId → Object) (p q : Peer F) : Prop where
  held : q.held = p.held
  sigs : q.sigs = p.sigs
  index : q.index = p.index
  trusted : q.trusted = p.trusted
  dropsMono : p.drops ⊆ q.drops
  drops : ∀ e ∈ q.drops, e ∈ p.drops ∨ e.tomb ∈ p.held ∧
    ∃ t, IsTomb content e.tomb t e.dropped ∧ t.snapshot = e.snap ∧
      Honored content p e.tomb t e.dropped
  pending : ∀ x ∈ p.pending, x ∈ p.held → ∀ t d, IsTomb content x t d →
    (Honored content p x t d → ⟨t.snapshot, x, d⟩ ∈ q.drops) ∧
      (x ∈ q.pending ∨ ⟨t.snapshot, x, d⟩ ∈ q.drops)

/-- The fold over the pending list, `done` judged: `acc.1` is kept. -/
structure Rejudged (content : ObjectId → Object) (p : Peer F) (done : List ObjectId)
    (acc : List ObjectId × Peer F) : Prop where
  held : acc.2.held = p.held
  sigs : acc.2.sigs = p.sigs
  index : acc.2.index = p.index
  trusted : acc.2.trusted = p.trusted
  pending : acc.2.pending = p.pending
  dropsMono : p.drops ⊆ acc.2.drops
  drops : ∀ e ∈ acc.2.drops, e ∈ p.drops ∨ e.tomb ∈ p.held ∧
    ∃ t, IsTomb content e.tomb t e.dropped ∧ t.snapshot = e.snap ∧
      Honored content p e.tomb t e.dropped
  judged : ∀ x ∈ done, x ∈ p.held → ∀ t d, IsTomb content x t d →
    (Honored content p x t d → ⟨t.snapshot, x, d⟩ ∈ acc.2.drops) ∧
      (x ∈ acc.1 ∨ ⟨t.snapshot, x, d⟩ ∈ acc.2.drops)

theorem rejudge_ok {p : Peer F} (hs : SigsSound cr content p.held p.sigs) {done : List ObjectId}
    {acc : List ObjectId × Peer F} (h : Rejudged content p done acc) (x : ObjectId) :
    Rejudged content p (done ++ [x]) (rejudge cr content acc x) := by
  have hskip : (x ∈ p.held → ∀ t d, ¬ IsTomb content x t d) → Rejudged content p (done ++ [x]) acc := by
    intro hnone
    refine { h with judged := fun y hy hheld t d ht => ?_ }
    rcases mem_snoc.mp hy with hy | rfl
    · exact h.judged y hy hheld t d ht
    · exact absurd ht (hnone hheld t d)
  unfold rejudge
  rw [h.held]
  split
  · next hheld =>
    rw [List.contains_iff_mem] at hheld
    split
    · next t hc =>
      split
      · next d hd =>
        have ht : IsTomb content x t d := ⟨hc, hd⟩
        rw [h.trusted, h.sigs]
        split
        · next hhon =>
          have hhon := (honored_iff hs ht).mp hhon
          have hmono : acc.2.drops ⊆ (appendDrop ⟨t.snapshot, x, d⟩ acc.2).drops :=
            fun e he => mem_appendDrop.mpr (Or.inl he)
          refine ⟨by simp [h.held], by simp [h.sigs], by simp [h.index], by simp [h.trusted],
            by simp [h.pending], List.Subset.trans h.dropsMono hmono, ?_, ?_⟩
          · intro e he
            rcases mem_appendDrop.mp he with he | rfl
            · exact h.drops e he
            · exact Or.inr ⟨hheld, t, ht, rfl, hhon⟩
          · intro y hy hyheld u e hu
            rcases mem_snoc.mp hy with hy | rfl
            · obtain ⟨h1, h2⟩ := h.judged y hy hyheld u e hu
              exact ⟨fun hh => hmono (h1 hh), h2.imp_right fun hm => hmono hm⟩
            · obtain ⟨rfl, rfl⟩ := hu.unique ht
              have hnew := (mem_appendDrop (e := ⟨u.snapshot, y, e⟩) (p := acc.2)).mpr (Or.inr rfl)
              exact ⟨fun _ => hnew, Or.inr hnew⟩
        · next hhon =>
          refine ⟨h.held, h.sigs, h.index, h.trusted, h.pending, h.dropsMono, h.drops, ?_⟩
          intro y hy hyheld u e hu
          rcases mem_snoc.mp hy with hy | rfl
          · obtain ⟨h1, h2⟩ := h.judged y hy hyheld u e hu
            exact ⟨h1, h2.imp_left (List.mem_append_left _)⟩
          · obtain ⟨rfl, rfl⟩ := hu.unique ht
            exact ⟨fun hh => absurd ((honored_iff hs ht).mpr hh) hhon, Or.inl (by simp)⟩
      · next hd =>
        refine hskip fun _ u e hu => ?_
        obtain ⟨hc', hd'⟩ := hu
        rw [hc] at hc'
        cases hc'
        rw [hd] at hd'
        cases hd'
    · next hne => exact hskip fun _ u e hu => hne u hu.1
  · next hheld => exact hskip fun hh => absurd (by simpa using hh) hheld

theorem reevaluateInner_judged {p : Peer F} (hs : SigsSound cr content p.held p.sigs) :
    Judged content p (reevaluateInner cr content p) := by
  have hfold : ∀ rest done acc, Rejudged content p done acc →
      Rejudged content p (done ++ rest) (rest.foldl (rejudge cr content) acc) := by
    intro rest
    induction rest with
    | nil =>
      intro done acc h
      simpa using h
    | cons x rest ih =>
      intro done acc h
      simpa using ih (done ++ [x]) _ (rejudge_ok hs h x)
  have hstart : Rejudged content p [] ([], p) :=
    ⟨rfl, rfl, rfl, rfl, rfl, List.Subset.refl _, fun _ he => Or.inl he, by simp⟩
  have h := hfold p.pending [] _ hstart
  rw [List.nil_append] at h
  unfold reevaluateInner
  simp only
  split
  · unfold writePending
    split
    · next hnil =>
      refine ⟨h.held, h.sigs, h.index, h.trusted, h.dropsMono, h.drops, ?_⟩
      intro x hx hheld t d ht
      obtain ⟨h1, h2⟩ := h.judged x hx hheld t d ht
      refine ⟨h1, Or.inr (h2.resolve_left ?_)⟩
      rw [hnil]
      exact List.not_mem_nil
    · exact ⟨h.held, h.sigs, h.index, h.trusted, h.dropsMono, h.drops, h.judged⟩
  · refine ⟨h.held, h.sigs, h.index, h.trusted, h.dropsMono, h.drops, ?_⟩
    intro x hx hheld t d ht
    refine ⟨(h.judged x hx hheld t d ht).1, Or.inl ?_⟩
    rw [h.pending]
    exact hx

variable [DecidableEq F]

/-- Either the pending tombstones are judged and the trust recorded, or there was no need. -/
theorem reevaluate_cases (fp : Finset Signer → F) {p : Peer F}
    (hs : SigsSound cr content p.held p.sigs) :
    (Judged content p (reevaluateIfTrustChanged cr content fp p) ∧
      (reevaluateIfTrustChanged cr content fp p).pendingTrust = some (fp p.trusted)) ∨
    (reevaluateIfTrustChanged cr content fp p = p ∧
      (p.pending = [] ∨ p.pendingTrust = some (fp p.trusted))) := by
  unfold reevaluateIfTrustChanged
  split
  · left
    have h := reevaluateInner_judged hs
    exact ⟨⟨h.held, h.sigs, h.index, h.trusted, h.dropsMono, h.drops, h.pending⟩, rfl⟩
  · next hneed =>
    right
    refine ⟨rfl, ?_⟩
    by_contra hnot
    rw [not_or] at hnot
    exact hneed (by simp [needsJudging, hnot.1, hnot.2])

end

end SrcControl.Transcripts
