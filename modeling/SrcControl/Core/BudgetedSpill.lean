import SrcControl.Core.BudgetedAccounts

/-!
# Eviction to the spill directory

The spill writer assumes a blob. A sealed payload counts against the budget like one, so
it becomes a victim when it is the coldest, and the branch taken for unreachable is
reached. When that happens is settled exactly by what is resident before the operation;
where it does not, no object is ever lost.
-/

namespace SrcControl.Budgeted

open Fallible Store

/-! ## When eviction has room -/

/-- The bytes of the residents last used at `t` or later. -/
def Store.warmBytes (s : Store) (t : Nat) : Nat :=
  s.resident.total (fun r => if t ≤ r.lastUsed then r.blobSize else 0)

/-- Every object that counts bytes and is no blob may stay, together with all that is no
colder: evicting what is colder makes the room. -/
def Room (s : Store) (needed : Nat) : Prop :=
  ∀ (id : ObjectId) (r : Resident), s.resident[id]? = some r → 0 < r.blobSize →
    r.obj.isBlob = false → s.warmBytes r.lastUsed + needed ≤ s.cfg.budgetBytes

/-- The bytes an operation asks room for. -/
def needs (hash : Bytes → Bytes) (s : Store) : Op → Option Nat
  | .put obj =>
    if s.resident.contains (obj.id hash) || s.spilled.contains (obj.id hash) then none
    else if 0 < obj.blobSize then some obj.blobSize else none
  | .get id => if s.resident.contains id then none else s.spilled[id]?
  | .delete _ => none

def Roomy (hash : Bytes → Bytes) (s : Store) (op : Op) : Prop :=
  ∀ needed, needs hash s op = some needed → Room s needed

/-- Every operation of the run finds its room. -/
def AllRoomy (hash : Bytes → Bytes) (zstd : Zstd) : Store → List Op → Prop
  | _, [] => True
  | s, op :: ops => Roomy hash s op ∧ AllRoomy hash zstd (step hash zstd s op) ops

/-! ## Calls that succeed -/

/-- Equal up to the count of calls and the readiness of the spill directory. -/
structure SameFiles (s s' : Store) : Prop extends SameCache s s' where
  disk : s'.disk = s.disk
  faults : s'.faults = s.faults

theorem SameFiles.refl (s : Store) : SameFiles s s := ⟨.refl s, rfl, rfl⟩

/-- Every call succeeds. -/
def Calm (s : Store) : Prop := s.faults = fun _ => .done

section Spilling

variable {hash : Bytes → Bytes} {zstd : Zstd} {budget : Nat} {s s' : Store}

theorem call_calm (h : Calm s) :
    Outcome call s (fun result s' => result = .done ∧ SameFiles s s') (fun _ _ => False) := by
  refine .bind (.get (.bind (.modify (.pure ⟨?_, ⟨rfl, rfl, rfl, rfl, rfl⟩, rfl, rfl⟩))))
  rw [h]

theorem attempt_calm (h : Calm s) :
    Outcome attempt s (fun _ s' => SameFiles s s') (fun _ _ => False) := by
  refine .bind ((call_calm h).mono (fun result s₁ hs => ?_) (fun _ _ hf => hf))
  obtain ⟨rfl, hs⟩ := hs
  exact .pure hs

theorem ensureSpillDir_calm (h : Calm s) :
    Outcome ensureSpillDir s (fun _ s' => SameFiles s s') (fun _ _ => False) := by
  refine .bind (.get ?_)
  by_cases hready : s.spillDirReady = true
  · rw [if_pos hready]
    exact .pure (.refl s)
  · rw [if_neg hready]
    refine .bind ((attempt_calm h).mono (fun _ s₁ hs => ?_) (fun _ _ hf => hf))
    exact .modify ⟨⟨hs.cfg, hs.resident, hs.spilled, hs.clock, hs.bytes⟩, hs.disk, hs.faults⟩

/-- The file is there afterwards: the one that stood there, or the bytes just written. -/
theorem writeSpill_calm {id : ObjectId} {bytes : Bytes} (h : Calm s) :
    Outcome (writeSpill id bytes) s
      (fun _ s' => SameCache s s' ∧ s'.faults = s.faults ∧
        ∀ i : ObjectId, s'.disk.spill[i]? =
          if id = i then (s.disk.spill[id]?).or (some bytes) else s.disk.spill[i]?)
      (fun _ _ => False) := by
  refine .bind ((ensureSpillDir_calm h).mono (fun _ s₁ hs => ?_) (fun _ _ hf => hf))
  refine .bind (.get ?_)
  have hcalm : Calm s₁ := hs.faults.trans h
  cases hfile : s₁.disk.spill[id]? with
  | some old =>
    simp only [Option.isSome_some, if_true]
    refine .pure ⟨hs.toSameCache, hs.faults, fun i => ?_⟩
    rw [hs.disk] at hfile ⊢
    by_cases hi : id = i
    · rw [if_pos hi, ← hi, hfile]
      rfl
    · rw [if_neg hi]
  | none =>
    simp only [Option.isSome_none, Bool.false_eq_true, if_false]
    refine .bind ((call_calm hcalm).mono (fun result s₂ hs₂ => ?_) (fun _ _ hf => hf))
    obtain ⟨rfl, hs₂⟩ := hs₂
    have hcache : SameCache s (setSpill id bytes s₂) :=
      (hs.toSameCache.trans hs₂.toSameCache).trans ⟨rfl, rfl, rfl, rfl, rfl⟩
    refine .modify ⟨hcache, hs₂.faults.trans hs.faults, fun i => ?_⟩
    change (s₂.disk.spill.insert id bytes)[i]? = _
    rw [hs.disk] at hfile
    rw [BTreeMap.getElem?_insert, hs₂.disk, hs.disk, hfile]
    rfl

theorem readSpill_calm {id : ObjectId} {bytes : Bytes} (h : Calm s)
    (hfile : s.disk.spill[id]? = some bytes) (hid : (Object.blob bytes).id hash = id) :
    Outcome (readSpill hash id) s (fun obj s' => obj = .blob bytes ∧ SameFiles s s')
      (fun _ _ => False) := by
  refine .bind ((attempt_calm h).mono (fun _ s₁ hs => ?_) (fun _ _ hf => hf))
  refine .bind (.get ?_)
  rw [hs.disk, hfile]
  simp only [hid, if_true]
  exact .pure ⟨rfl, hs⟩

/-! ## The invariant -/

/-- A store that spills, every call succeeding: recency is a total order on the residents,
and the spill directory holds blobs under their address, the spilled ones among them. -/
structure Spilling (hash : Bytes → Bytes) (budget : Nat) (s : Store) : Prop where
  accounts : Accounted hash ⟨budget, .ephemeral .spillTo⟩ s
  calm : Calm s
  clock : ∀ (id : ObjectId) (r : Resident), s.resident[id]? = some r → r.lastUsed ≤ s.clock
  recency : ∀ (i j : ObjectId) (r r' : Resident), s.resident[i]? = some r →
    s.resident[j]? = some r' → r.lastUsed = r'.lastUsed → i = j
  files : ∀ (id : ObjectId) (bytes : Bytes), s.disk.spill[id]? = some bytes →
    (Object.blob bytes).id hash = id
  kept : ∀ (id : ObjectId) (size : Nat), s.spilled[id]? = some size →
    (∃ bytes, s.disk.spill[id]? = some bytes) ∧ size ≤ budget

/-- The object a reader finds under the id. -/
def Store.held (s : Store) (id : ObjectId) : Option Object :=
  match s.resident[id]? with
  | some r => some r.obj
  | none => if s.spilled[id]?.isSome then (s.disk.spill[id]?).map Object.blob else none

/-- The same objects for every reader. -/
def SameHeld (s s' : Store) : Prop := ∀ id, s'.held id = s.held id

/-- Distinct encodings have distinct digests. -/
def CollisionFree (hash : Bytes → Bytes) : Prop :=
  ∀ o o' : Object, o.id hash = o'.id hash → o.encode = o'.encode

theorem eq_blob_of_encode {o : Object} {bytes : Bytes} (h : o.encode = (Object.blob bytes).encode) :
    o = .blob bytes := by
  cases o with
  | blob b => simpa [Object.encode, Object.fields, Fields.bytes] using h
  | _ =>
    simp [Object.encode, Object.fields, Fields.bytes, TAG_BLOB, TAG_TREE, TAG_SNAPSHOT, TAG_SECRET,
      TAG_SIGNATURE, TAG_TRANSCRIPT, TAG_SEALED, TAG_MANIFEST] at h

theorem eq_blob_of_id (hc : CollisionFree hash) {o : Object} {bytes : Bytes}
    (h : o.id hash = (Object.blob bytes).id hash) : o = .blob bytes :=
  eq_blob_of_encode (hc o (.blob bytes) h)

theorem Spilling.sameFiles (h : Spilling hash budget s) (hs : SameFiles s s') :
    Spilling hash budget s' := by
  refine ⟨h.accounts.sameCache hs.toSameCache, hs.faults.trans h.calm, ?_, ?_, ?_, ?_⟩
  · rw [hs.resident, hs.clock]
    exact h.clock
  · rw [hs.resident]
    exact h.recency
  · rw [hs.disk]
    exact h.files
  · rw [hs.spilled, hs.disk]
    exact h.kept

theorem SameFiles.held (hs : SameFiles s s') : SameHeld s s' := by
  intro id
  unfold Store.held
  rw [hs.resident, hs.spilled, hs.disk]

/-! ## One eviction -/

/-- The spilled blob reads as it did in memory. -/
theorem evictToSpill_spilling (hc : CollisionFree hash) (h : Spilling hash budget s)
    {id : ObjectId} {r : Resident} {bytes : Bytes} (hr : s.resident[id]? = some r)
    (hobj : r.obj = .blob bytes) :
    Outcome (evictToSpill id) s
      (fun _ s' => Spilling hash budget s' ∧ SameHeld s s' ∧ Shrunk s s' ∧
        s'.resident = s.resident.erase id ∧ s'.clock = s.clock)
      (fun _ _ => False) := by
  have hown : (Object.blob bytes).id hash = id :=
    hobj ▸ h.accounts.address (by simp) id r hr
  refine .bind (.get ?_)
  simp only [hr, hobj]
  refine .bind ((writeSpill_calm h.calm).mono (fun _ s₁ hs => ?_) (fun _ _ hf => hf))
  obtain ⟨hs, hfaults, hdisk⟩ := hs
  have hfile : s₁.disk.spill[id]? = some bytes := by
    rw [hdisk, if_pos rfl]
    cases hold : s.disk.spill[id]? with
    | none => rfl
    | some old =>
      have hsame := eq_blob_of_id hc ((h.files id old hold).trans hown.symm)
      simpa using hsame
  have hold : ∀ (i : ObjectId) (b : Bytes), s₁.disk.spill[i]? = some b →
      (Object.blob b).id hash = i := by
    intro i b hi
    by_cases hii : id = i
    · subst hii
      rw [hfile] at hi
      cases hi
      exact hown
    · rw [hdisk, if_neg hii] at hi
      exact h.files i b hi
  have hr₁ : s₁.resident[id]? = some r := by rw [hs.resident, hr]
  have hacc := (h.accounts.sameCache hs).spill hr₁ hobj (by simp)
  have hspilled : ∀ i : ObjectId, (s₁.spilled.insert id r.blobSize)[i]? =
      if id = i then some r.blobSize else s.spilled[i]? := by
    intro i
    rw [BTreeMap.getElem?_insert, hs.spilled]
  refine .modify ⟨⟨hacc, hfaults.trans h.calm, fun i r' hi => ?_, fun i j r' r'' hi hj => ?_, hold,
    fun i size hi => ?_⟩, fun i => ?_, ?_, ?_, hs.clock⟩
  · change r'.lastUsed ≤ s₁.clock
    rw [hs.clock]
    exact h.clock i r' (hs.resident ▸ (mem_erase hi).2)
  · exact h.recency i j r' r'' (hs.resident ▸ (mem_erase hi).2) (hs.resident ▸ (mem_erase hj).2)
  · change (s₁.spilled.insert id r.blobSize)[i]? = some size at hi
    rw [hspilled] at hi
    split_ifs at hi with hii
    · cases hi
      refine ⟨⟨bytes, hii ▸ hfile⟩, ?_⟩
      have hle : r.blobSize ≤ s.totalBlobSize := BTreeMap.le_total hr
      exact (hle.trans (le_of_eq h.accounts.bytes.symm)).trans h.accounts.budget
    · obtain ⟨⟨b, hb⟩, hsize⟩ := h.kept i size hi
      refine ⟨⟨b, ?_⟩, hsize⟩
      change s₁.disk.spill[i]? = some b
      rw [hdisk, if_neg hii, hb]
  · change (match (s₁.resident.erase id)[i]? with
      | some r => some r.obj
      | none => if ((s₁.spilled.insert id r.blobSize)[i]?).isSome then
          (s₁.disk.spill[i]?).map Object.blob else none) = s.held i
    rw [BTreeMap.getElem?_erase, hspilled, hs.resident]
    by_cases hii : id = i
    · subst hii
      simp [Store.held, hfile, hr, hobj]
    · simp [Store.held, hii, hdisk]
  · intro i hi
    refine ⟨absent_erase (hs.resident ▸ hi), ?_⟩
    have hne : id ≠ i := fun he => by rw [he, hi] at hr; cases hr
    exact (hspilled i).trans (if_neg hne)
  · change s₁.resident.erase id = s.resident.erase id
    rw [hs.resident]

/-! ## Making room -/

theorem warmBytes_le (t : Nat) : s.warmBytes t ≤ s.totalBlobSize := by
  refine BTreeMap.total_mono (fun i r _ => ?_)
  split_ifs
  · exact le_refl _
  · exact Nat.zero_le _

/-- From the coldest object with bytes on, everything is warm. -/
theorem warmBytes_coldest {t : Nat}
    (h : ∀ (i : ObjectId) (r : Resident), s.resident[i]? = some r → 0 < r.blobSize →
      t ≤ r.lastUsed) : s.warmBytes t = s.totalBlobSize := by
  refine BTreeMap.total_congr (fun i r hi => ?_)
  by_cases hpos : 0 < r.blobSize
  · rw [if_pos (h i r hi hpos)]
  · rw [Nat.eq_zero_of_not_pos hpos, ite_self]

/-- An eviction leaves the bytes warmer than the victim as they are. -/
theorem warmBytes_erase {id : ObjectId} {r : Resident} {t : Nat} (hr : s.resident[id]? = some r)
    (ht : r.lastUsed < t) (hs : s'.resident = s.resident.erase id) :
    s'.warmBytes t = s.warmBytes t := by
  unfold Store.warmBytes
  rw [hs, BTreeMap.total_erase hr, if_neg (Nat.not_le.mpr ht), Nat.zero_add]

/-- Room before an eviction is room after it, the victim being the coldest. -/
theorem room_erase (h : Spilling hash budget s) {needed : Nat} {id : ObjectId} {r : Resident}
    {bytes : Bytes} (hr : s.resident[id]? = some r) (hobj : r.obj = .blob bytes)
    (hcold : ∀ (i : ObjectId) (r' : Resident), s.resident[i]? = some r' → 0 < r'.blobSize →
      r.lastUsed ≤ r'.lastUsed) (hcfg : s'.cfg = s.cfg)
    (hs : s'.resident = s.resident.erase id) : Room s' needed ↔ Room s needed := by
  have hwarmer : ∀ (i : ObjectId) (r' : Resident), s.resident[i]? = some r' → 0 < r'.blobSize →
      i ≠ id → r.lastUsed < r'.lastUsed := by
    intro i r' hi hpos hne
    refine Nat.lt_of_le_of_ne (hcold i r' hi hpos) (fun he => hne ?_)
    exact (h.recency id i r r' hr hi he).symm
  constructor
  · intro hroom i r' hi hpos hblob
    have hne : i ≠ id := by
      rintro rfl
      rw [hr] at hi
      cases hi
      rw [hobj] at hblob
      cases hblob
    have hi' : s'.resident[i]? = some r' := by
      rw [hs, BTreeMap.getElem?_erase, if_neg hne.symm, hi]
    have := hroom i r' hi' hpos hblob
    rwa [warmBytes_erase hr (hwarmer i r' hi hpos hne) hs, hcfg] at this
  · intro hroom i r' hi hpos hblob
    rw [hs] at hi
    obtain ⟨hne, hi⟩ := mem_erase hi
    rw [warmBytes_erase hr (hwarmer i r' hi hpos hne) hs, hcfg]
    exact hroom i r' hi hpos hblob

/-- How eviction fails: at an object it takes for a blob, or with nothing left to evict. -/
def Stuck (budget : Nat) (s : Store) (needed : Nat) (e : Failure) : Prop :=
  ((∃ msg, e = .abort msg) ∧ ¬ Room s needed) ∨
    ((∃ available, e = .budgetExceeded needed available budget) ∧ Room s needed ∧ budget < needed)

theorem ensureCapacityLoop_spilling (hc : CollisionFree hash) (needed : Nat) {incoming : ObjectId}
    (fuel : Nat) (h : Spilling hash budget s) (hin : s.resident[incoming]? = none)
    (hfuel : s.resident.size < fuel) :
    Outcome (ensureCapacityLoop needed incoming fuel) s
      (fun _ s' => Spilling hash budget s' ∧ SameHeld s s' ∧ Shrunk s s' ∧ Room s needed ∧
        s'.residentBlobBytes + needed ≤ budget ∧ s'.clock = s.clock)
      (fun e s' => Spilling hash budget s' ∧ SameHeld s s' ∧ Stuck budget s needed e) := by
  induction fuel generalizing s with
  | zero => exact absurd hfuel (Nat.not_lt_zero _)
  | succ fuel ih =>
    refine .bind (.get ?_)
    have hcfg := h.accounts.config
    have hbudget : s.cfg.budgetBytes = budget := by rw [hcfg]
    have hbytes : s.residentBlobBytes = s.totalBlobSize := h.accounts.bytes
    have hne : ∀ (i : ObjectId) (r : Resident), s.resident[i]? = some r → i ≠ incoming := by
      rintro i r hi rfl
      rw [hin] at hi
      cases hi
    by_cases hroom : s.residentBlobBytes + needed ≤ s.cfg.budgetBytes
    · rw [if_pos hroom]
      refine .pure ⟨h, fun _ => rfl, .refl s, fun i r _ _ _ => ?_, hbudget ▸ hroom, rfl⟩
      exact (Nat.add_le_add_right (hbytes ▸ warmBytes_le r.lastUsed) needed).trans hroom
    · rw [if_neg hroom]
      cases hvictim : s.victim incoming with
      | none =>
        -- Nothing resident has bytes, so the request alone exceeds the budget.
        have hzero : ∀ (i : ObjectId) (r : Resident), s.resident[i]? = some r → r.blobSize = 0 :=
          fun i r hi => victim_none hvictim hi (hne i r hi)
        have hsum : s.totalBlobSize = 0 := by
          have hnone : s.totalBlobSize = BTreeMap.total (fun _ => 0) s.resident :=
            BTreeMap.total_congr hzero
          rw [hnone]
          simp [BTreeMap.total]
        refine .throw ⟨h, fun _ => rfl, .inr ⟨⟨_, by rw [hbudget]⟩, fun i r hi hpos _ => ?_, ?_⟩⟩
        · rw [hzero i r hi] at hpos
          exact absurd hpos (Nat.lt_irrefl 0)
        · rw [hbytes, hsum, hbudget] at hroom
          omega
      | some id =>
        obtain ⟨r, hr, hpos, -, hcold⟩ := victim_some hvictim
        have hcold' : ∀ (i : ObjectId) (r' : Resident), s.resident[i]? = some r' →
            0 < r'.blobSize → r.lastUsed ≤ r'.lastUsed := fun i r' hi hpos' =>
          hcold i r' hi hpos' (hne i r' hi)
        rw [show s.cfg.backend = .ephemeral .spillTo by rw [hcfg]]
        by_cases hblob : r.obj.isBlob = true
        · obtain ⟨bytes, hobj⟩ : ∃ bytes, r.obj = .blob bytes := by
            cases hobj : r.obj with
            | blob bytes => exact ⟨bytes, rfl⟩
            | _ => rw [hobj] at hblob; cases hblob
          refine .bind ((evictToSpill_spilling hc h hr hobj).mono (fun _ s₁ hs₁ => ?_)
            (fun _ _ hf => hf.elim))
          obtain ⟨h₁, hheld, hshrunk, hres, hclock⟩ := hs₁
          have hiff : Room s₁ needed ↔ Room s needed :=
            room_erase h hr hobj hcold' (h₁.accounts.config.trans hcfg.symm) hres
          have hsize : s₁.resident.size < fuel := by
            have hmem : s.resident.contains id = true := by
              rw [Std.ExtTreeMap.contains_eq_isSome_getElem?, hr]
              rfl
            rw [hres, Std.ExtTreeMap.size_erase, if_pos hmem]
            have hpos : s.resident.size ≠ 0 := by
              intro hzero
              rw [← Std.ExtTreeMap.eq_empty_iff_size_eq_zero] at hzero
              rw [hzero] at hr
              simp at hr
            omega
          refine (ih h₁ (hshrunk incoming hin).1 hsize).mono (fun _ s' hs' => ?_)
            (fun e s' hs' => ?_)
          · obtain ⟨h', hheld', hshrunk', hroom', hfits, hclock'⟩ := hs'
            exact ⟨h', fun i => (hheld' i).trans (hheld i), hshrunk.trans hshrunk',
              hiff.mp hroom', hfits, hclock'.trans hclock⟩
          · obtain ⟨h', hheld', hstuck⟩ := hs'
            refine ⟨h', fun i => (hheld' i).trans (hheld i), ?_⟩
            simpa only [Stuck, hiff] using hstuck
        · -- The coldest object is no blob: evicting everything colder made no room.
          have habort : Outcome (evictToSpill id) s (fun _ _ => False)
              (fun e s' => s' = s ∧ ∃ msg, e = .abort msg) := by
            refine .bind (.get ?_)
            simp only [hr]
            cases hobj : r.obj with
            | blob bytes => rw [hobj] at hblob; exact absurd rfl hblob
            | _ => exact .throw ⟨rfl, _, rfl⟩
          refine .bind (habort.mono (fun _ _ hf => hf.elim) (fun e s' he => ?_))
          obtain ⟨rfl, hmsg⟩ := he
          refine ⟨h, fun _ => rfl, .inl ⟨hmsg, fun hfits => hroom ?_⟩⟩
          have := hfits id r hr hpos (by simpa using hblob)
          rwa [warmBytes_coldest hcold', ← hbytes] at this

theorem ensureCapacity_spilling (hc : CollisionFree hash) {needed : Nat} {incoming : ObjectId}
    (h : Spilling hash budget s) (hin : s.resident[incoming]? = none) :
    Outcome (ensureCapacity needed incoming) s
      (fun _ s' => Spilling hash budget s' ∧ SameHeld s s' ∧ Shrunk s s' ∧ Room s needed ∧
        s'.residentBlobBytes + needed ≤ budget ∧ s'.clock = s.clock)
      (fun e s' => Spilling hash budget s' ∧ SameHeld s s' ∧ Stuck budget s needed e) := by
  refine .bind (.get ?_)
  by_cases hroom : s.residentBlobBytes + needed ≤ s.cfg.budgetBytes
  · -- The loop would return at once as well.
    have hloop := ensureCapacityLoop_spilling hc needed _ h hin (Nat.lt_succ_self _)
    have hrun : ensureCapacityLoop needed incoming (s.resident.size + 1) s = .ok () s := by
      change (if s.residentBlobBytes + needed ≤ s.cfg.budgetBytes then _ else _ : M Unit) s = _
      rw [if_pos hroom]
      rfl
    rw [if_pos hroom]
    unfold Outcome at hloop
    rw [hrun] at hloop
    exact .pure hloop
  · rw [if_neg hroom]
    exact ensureCapacityLoop_spilling hc needed _ h hin (Nat.lt_succ_self _)

/-! ## Rows written at the next tick -/

theorem Spilling.tick (h : Spilling hash budget s) {id : ObjectId} {row : Resident}
    (hacc : Accounted hash ⟨budget, .ephemeral .spillTo⟩ s')
    (hres : s'.resident = s.resident.insert id row) (hrow : row.lastUsed = s.clock + 1)
    (hclock : s'.clock = s.clock + 1) (hfaults : s'.faults = s.faults) (hdisk : s'.disk = s.disk)
    (hspilled : ∀ (i : ObjectId) (size : Nat), s'.spilled[i]? = some size →
      s.spilled[i]? = some size) : Spilling hash budget s' := by
  have hcases : ∀ (i : ObjectId) (r : Resident), s'.resident[i]? = some r →
      (i = id ∧ r = row) ∨ (i ≠ id ∧ s.resident[i]? = some r) := by
    intro i r hi
    rw [hres, BTreeMap.getElem?_insert] at hi
    split_ifs at hi with hii
    · exact .inl ⟨hii.symm, (Option.some.inj hi).symm⟩
    · exact .inr ⟨Ne.symm hii, hi⟩
  refine ⟨hacc, hfaults.trans h.calm, fun i r hi => ?_, fun i j r r' hi hj he => ?_, ?_,
    fun i size hi => ?_⟩
  · rcases hcases i r hi with ⟨-, rfl⟩ | ⟨-, hi⟩
    · rw [hrow, hclock]
    · rw [hclock]
      exact (h.clock i r hi).trans (Nat.le_succ _)
  · rcases hcases i r hi with ⟨rfl, rfl⟩ | ⟨-, hi⟩ <;> rcases hcases j r' hj with ⟨rfl, rfl⟩ | ⟨-, hj⟩
    · rfl
    · have := h.clock j r' hj
      omega
    · have := h.clock i r hi
      omega
    · exact h.recency i j r r' hi hj he
  · rw [hdisk]
    exact h.files
  · rw [hdisk]
    exact h.kept i size (hspilled i size hi)

theorem held_insert {id : ObjectId} {row : Resident}
    (hres : s'.resident = s.resident.insert id row) (hdisk : s'.disk = s.disk)
    (hspilled : ∀ i : ObjectId, i ≠ id → s'.spilled[i]? = s.spilled[i]?) (i : ObjectId) :
    s'.held i = if i = id then some row.obj else s.held i := by
  unfold Store.held
  rw [hres, hdisk, BTreeMap.getElem?_insert]
  by_cases hi : id = i
  · simp [hi]
  · rw [if_neg hi, if_neg (Ne.symm hi), hspilled i (Ne.symm hi)]

theorem held_of_absent {id : ObjectId} (hres : s.resident[id]? = none)
    (hspilled : s.spilled[id]? = none) : s.held id = none := by
  simp [Store.held, hres, hspilled]

/-- What is held is held under its own address. -/
theorem held_id (h : Spilling hash budget s) {id : ObjectId} {o : Object}
    (ho : s.held id = some o) : o.id hash = id := by
  unfold Store.held at ho
  cases hr : s.resident[id]? with
  | some r =>
    simp only [hr, Option.some.injEq] at ho
    exact ho ▸ h.accounts.address (by simp) id r hr
  | none =>
    simp only [hr] at ho
    split_ifs at ho
    obtain ⟨bytes, hbytes, rfl⟩ := Option.map_eq_some_iff.mp ho
    exact h.files id bytes hbytes

theorem held_of_known (h : Spilling hash budget s) {id : ObjectId}
    (hknown : (s.resident.contains id || s.spilled.contains id) = true) :
    ∃ o, s.held id = some o := by
  unfold Store.held
  cases hr : s.resident[id]? with
  | some r => exact ⟨r.obj, rfl⟩
  | none =>
    simp only [Std.ExtTreeMap.contains_eq_isSome_getElem?, hr, Option.isSome_none,
      Bool.false_or] at hknown
    obtain ⟨size, hsize⟩ := Option.isSome_iff_exists.mp hknown
    obtain ⟨⟨bytes, hbytes⟩, -⟩ := h.kept id size hsize
    exact ⟨.blob bytes, by simp [hsize, hbytes]⟩

/-! ## Operations -/

/-- How an operation fails. -/
def Refused (hash : Bytes → Bytes) (s : Store) (op : Op) (e : Failure) : Prop :=
  (∃ msg, e = .abort msg) ↔ ¬ Roomy hash s op

theorem Stuck.refused {needed : Nat} {e : Failure} {op : Op} (h : Stuck budget s needed e)
    (hneeds : needs hash s op = some needed) : Refused hash s op e := by
  have hroomy : Roomy hash s op ↔ Room s needed := by simp [Roomy, hneeds]
  unfold Refused
  rw [hroomy]
  rcases h with ⟨hmsg, hroom⟩ | ⟨⟨available, rfl⟩, hroom, -⟩
  · exact ⟨fun _ => hroom, fun _ => hmsg⟩
  · refine ⟨?_, fun hno => absurd hroom hno⟩
    rintro ⟨msg, he⟩
    cases he

theorem put_spilling (hc : CollisionFree hash) (obj : Object) (h : Spilling hash budget s) :
    Outcome (put hash zstd obj) s
      (fun id s' => id = obj.id hash ∧ Spilling hash budget s' ∧ Roomy hash s (.put obj) ∧
        ∀ i, s'.held i = if i = obj.id hash ∧ s.held i = none then some obj else s.held i)
      (fun e s' => Spilling hash budget s' ∧ SameHeld s s' ∧ Refused hash s (.put obj) e) := by
  have hpersistent : s.isPersistent = false := by
    simp [isPersistent, h.accounts.config]
  refine .bind (.get ?_)
  by_cases hknown : (s.resident.contains (obj.id hash) || s.spilled.contains (obj.id hash)) = true
  · simp only [hknown, if_true]
    obtain ⟨o, ho⟩ := held_of_known h hknown
    refine .pure ⟨rfl, h, fun needed hneeds => ?_, fun i => ?_⟩
    · simp only [needs, hknown, if_true] at hneeds
      cases hneeds
    · rw [if_neg]
      rintro ⟨rfl, hi⟩
      rw [ho] at hi
      cases hi
  · simp only [hknown, hpersistent, Bool.false_and, Bool.false_eq_true, if_false]
    have habsent : s.resident[obj.id hash]? = none ∧ s.spilled[obj.id hash]? = none := by
      simpa using hknown
    have hfresh := held_of_absent habsent.1 habsent.2
    have hwrite : Outcome (writeThrough zstd (obj.id hash) obj) s (fun _ s' => s' = s)
        (fun _ _ => False) := by
      refine .bind (.get ?_)
      simp only [hpersistent, Bool.false_eq_true, if_false]
      exact .pure rfl
    have hdone : ∀ s₁, Spilling hash budget s₁ → SameHeld s s₁ → Shrunk s s₁ →
        s₁.residentBlobBytes + obj.blobSize ≤ budget → Roomy hash s (.put obj) →
        Outcome (do
          modify (insertResident (obj.id hash) obj obj.blobSize)
          pure (obj.id hash))
          { s₁ with residentBlobBytes := s₁.residentBlobBytes + obj.blobSize }
          (fun id s' => id = obj.id hash ∧ Spilling hash budget s' ∧ Roomy hash s (.put obj) ∧
            ∀ i, s'.held i = if i = obj.id hash ∧ s.held i = none then some obj else s.held i)
          (fun e s' => Spilling hash budget s' ∧ SameHeld s s' ∧ Refused hash s (.put obj) e) := by
      intro s₁ h₁ hheld hshrunk hfits hroomy
      obtain ⟨hout, hsame⟩ := hshrunk _ habsent.1
      have hacc := h₁.accounts.insert hout (hsame.trans habsent.2) hfits (fun _ => rfl) (.inl rfl)
      have hheld' : ∀ i, (insertResident (obj.id hash) obj obj.blobSize
          { s₁ with residentBlobBytes := s₁.residentBlobBytes + obj.blobSize }).held i =
            if i = obj.id hash then some (Resident.mk obj obj.blobSize (s₁.clock + 1)).obj
            else s₁.held i := held_insert rfl rfl (fun _ _ => rfl)
      refine .bind (.modify (.pure ⟨rfl, h₁.tick hacc rfl rfl rfl rfl rfl (fun _ _ hi => hi),
        hroomy, fun i => ?_⟩))
      rw [hheld' i, hheld i]
      by_cases hi : i = obj.id hash
      · rw [if_pos hi, if_pos ⟨hi, hi ▸ hfresh⟩]
      · rw [if_neg hi, if_neg (fun hand => hi hand.1)]
    refine .bind (hwrite.mono (fun _ s₁ hs₁ => ?_) (fun _ _ hf => hf.elim))
    subst hs₁
    by_cases hpos : 0 < obj.blobSize
    · have hneeds : needs hash s₁ (.put obj) = some obj.blobSize := by
        simp only [needs, hknown, Bool.false_eq_true, if_false, hpos, if_true]
      have hreserve : Outcome (reserve obj.blobSize (obj.id hash)) s₁
          (fun _ s' => ∃ s₂, (Spilling hash budget s₂ ∧ SameHeld s₁ s₂ ∧ Shrunk s₁ s₂ ∧
            s₂.residentBlobBytes + obj.blobSize ≤ budget ∧ Roomy hash s₁ (.put obj)) ∧
            s' = { s₂ with residentBlobBytes := s₂.residentBlobBytes + obj.blobSize })
          (fun e s' => Spilling hash budget s' ∧ SameHeld s₁ s' ∧
            Refused hash s₁ (.put obj) e) := by
        unfold reserve
        rw [if_pos hpos]
        refine .bind ((ensureCapacity_spilling hc h habsent.1).mono (fun _ s₂ hs₂ => ?_)
          (fun e s₂ hs₂ => ⟨hs₂.1, hs₂.2.1, hs₂.2.2.refused hneeds⟩))
        obtain ⟨h₂, hheld, hshrunk, hroom, hfits, -⟩ := hs₂
        refine .modify ⟨s₂, ⟨h₂, hheld, hshrunk, hfits, fun n hn => ?_⟩, rfl⟩
        rw [hneeds] at hn
        exact Option.some.inj hn ▸ hroom
      refine .bind (hreserve.mono (fun _ s₂ hs₂ => ?_) (fun _ _ hs₂ => hs₂))
      obtain ⟨s₃, ⟨h₃, hheld, hshrunk, hfits, hroomy⟩, rfl⟩ := hs₂
      exact hdone s₃ h₃ hheld hshrunk hfits hroomy
    · have hzero := Nat.eq_zero_of_not_pos hpos
      have hreserve : Outcome (reserve obj.blobSize (obj.id hash)) s₁ (fun _ s' => s' = s₁)
          (fun _ _ => False) := by
        unfold reserve
        rw [if_neg hpos]
        exact .pure rfl
      refine .bind (hreserve.mono (fun _ s₂ hs₂ => ?_) (fun _ _ hf => hf.elim))
      subst hs₂
      have hroomy : Roomy hash s₂ (.put obj) := by
        intro n hn
        simp only [needs, hknown, Bool.false_eq_true, if_false, hpos] at hn
        cases hn
      have hbudget : s₂.residentBlobBytes + obj.blobSize ≤ budget := by
        rw [hzero]
        exact h.accounts.budget
      have hsame : { s₂ with residentBlobBytes := s₂.residentBlobBytes + obj.blobSize } = s₂ := by
        rw [hzero]
        rfl
      have hput := hdone s₂ h (fun _ => rfl) (.refl s₂) hbudget hroomy
      rwa [hsame] at hput

theorem rehydrateSpill_spilling (hc : CollisionFree hash) {id : ObjectId} {size : Nat}
    (h : Spilling hash budget s) (hout : s.resident[id]? = none)
    (hspilled : s.spilled[id]? = some size) :
    Outcome (rehydrateSpill hash id size) s
      (fun obj s' => Spilling hash budget s' ∧ Roomy hash s (.get id) ∧ s.held id = some obj ∧
        SameHeld s s')
      (fun e s' => Spilling hash budget s' ∧ SameHeld s s' ∧ (∃ msg, e = .abort msg) ∧
        ¬ Roomy hash s (.get id)) := by
  obtain ⟨⟨bytes, hfile⟩, hsize⟩ := h.kept id size hspilled
  have hheld : s.held id = some (.blob bytes) := by
    simp [Store.held, hout, hspilled, hfile]
  have hneeds : needs hash s (.get id) = some size := by
    simp [needs, Std.ExtTreeMap.contains_eq_isSome_getElem?, hout, hspilled]
  have hroomy : Roomy hash s (.get id) ↔ Room s size := by simp [Roomy, hneeds]
  refine .bind ((readSpill_calm h.calm hfile (h.files id bytes hfile)).mono
    (fun obj s₁ hs₁ => ?_) (fun _ _ hf => hf.elim))
  obtain ⟨rfl, hs₁⟩ := hs₁
  have hroom₁ : Room s₁ size ↔ Room s size := by
    simp only [Room, Store.warmBytes, hs₁.resident, hs₁.cfg]
  have hout₁ : s₁.resident[id]? = none := by rw [hs₁.resident, hout]
  refine .bind ((ensureCapacity_spilling hc (h.sameFiles hs₁) hout₁).mono (fun _ s₂ hs₂ => ?_)
    (fun e s₂ hs₂ => ?_))
  · obtain ⟨h₂, hheld₂, hshrunk, hroom, hfits, -⟩ := hs₂
    obtain ⟨hout₂, hsame₂⟩ := hshrunk id hout₁
    have hgone : (s₂.spilled.erase id)[id]? = none := by rw [BTreeMap.getElem?_erase, if_pos rfl]
    have hacc := (h₂.accounts.unspill id).insert hout₂ hgone hfits
      (fun _ => h.files id bytes hfile) (.inr (h.accounts.spilled id size hspilled))
    refine .bind (.modify (.bind (.modify (.pure ⟨h₂.tick (hacc.sameCache ⟨rfl, rfl, rfl, rfl, rfl⟩)
      rfl rfl rfl rfl rfl (fun i n hi => ?_), hroomy.mpr (hroom₁.mp hroom), hheld, fun i => ?_⟩))))
    · change (s₂.spilled.erase id)[i]? = some n at hi
      rw [BTreeMap.getElem?_erase] at hi
      split_ifs at hi
      exact hi
    · have herased : ∀ i : ObjectId, i ≠ id → (s₂.spilled.erase id)[i]? = s₂.spilled[i]? := by
        intro i hi
        rw [BTreeMap.getElem?_erase, if_neg (Ne.symm hi)]
      refine (held_insert (by rfl) (by rfl) herased i).trans ?_
      by_cases hi : i = id
      · rw [if_pos hi, hi, hheld]
      · rw [if_neg hi, hheld₂ i, hs₁.held i]
  · obtain ⟨h₂, hheld₂, ⟨hmsg, hroom⟩ | ⟨-, -, hlt⟩⟩ := hs₂
    · refine ⟨h₂, fun i => (hheld₂ i).trans (hs₁.held i), hmsg, fun hno => hroom ?_⟩
      exact hroom₁.mpr (hroomy.mp hno)
    · exact absurd hsize (Nat.not_le.mpr hlt)

theorem fetch_spilling (hc : CollisionFree hash) (id : ObjectId) (h : Spilling hash budget s) :
    Outcome (fetch hash zstd id) s
      (fun obj s' => Spilling hash budget s' ∧ Roomy hash s (.get id) ∧ s.held id = some obj ∧
        SameHeld s s')
      (fun e s' => Spilling hash budget s' ∧ SameHeld s s' ∧ Refused hash s (.get id) e ∧
        (Roomy hash s (.get id) → s.held id = none)) := by
  refine .bind (.get ?_)
  cases hr : s.resident[id]? with
  | some r =>
    have hheld : s.held id = some r.obj := by simp [Store.held, hr]
    refine .bind (.modify (.pure ⟨h.tick (h.accounts.touch hr) rfl rfl rfl rfl rfl
      (fun _ _ hi => hi), fun n hn => ?_, hheld, fun i => ?_⟩))
    · simp [needs, Std.ExtTreeMap.contains_eq_isSome_getElem?, hr] at hn
    · refine (held_insert (by rfl) (by rfl) (fun _ _ => by rfl) i).trans ?_
      by_cases hi : i = id
      · rw [if_pos hi, hi, hheld]
      · rw [if_neg hi]
  | none =>
    cases hspilled : s.spilled[id]? with
    | some size =>
      refine (rehydrateSpill_spilling hc h hr hspilled).mono (fun _ _ hs => hs) (fun e s' hs => ?_)
      obtain ⟨h', hheld, hmsg, hno⟩ := hs
      exact ⟨h', hheld, ⟨fun _ => hno, fun _ => hmsg⟩, fun hroomy => absurd hroomy hno⟩
    | none =>
      have hpersistent : s.isPersistent = false := by simp [isPersistent, h.accounts.config]
      have hroomy : Roomy hash s (.get id) := by
        intro n hn
        simp [needs, Std.ExtTreeMap.contains_eq_isSome_getElem?, hr, hspilled] at hn
      simp only [hpersistent, Bool.false_eq_true, if_false]
      refine .throw ⟨h, fun _ => rfl, ⟨?_, fun hno => absurd hroomy hno⟩,
        fun _ => held_of_absent hr hspilled⟩
      rintro ⟨msg, he⟩
      cases he

theorem delete_spilling (id : ObjectId) (h : Spilling hash budget s) :
    Outcome (Budgeted.delete id) s
      (fun _ s' => Spilling hash budget s' ∧ ∀ i, i ≠ id → s'.held i = s.held i)
      (fun _ _ => False) := by
  have hpersistent : s.isPersistent = false := by simp [isPersistent, h.accounts.config]
  have hloose : Outcome (removeLoose id) s (fun _ s' => s' = s) (fun _ _ => False) := by
    refine .bind (.get ?_)
    simp only [hpersistent, Bool.false_and, Bool.false_eq_true, if_false]
    exact .pure rfl
  have hspilled : ∀ (i : ObjectId) (n : Nat), (s.spilled.erase id)[i]? = some n →
      s.spilled[i]? = some n := by
    intro i n hi
    rw [BTreeMap.getElem?_erase] at hi
    split_ifs at hi
    exact hi
  have herased : ∀ i : ObjectId, i ≠ id → (s.spilled.erase id)[i]? = s.spilled[i]? := by
    intro i hi
    rw [BTreeMap.getElem?_erase, if_neg (Ne.symm hi)]
  refine .bind (hloose.mono (fun _ s₁ hs₁ => ?_) (fun _ _ hf => hf.elim))
  subst hs₁
  refine .bind (.get ?_)
  cases hr : s₁.resident[id]? with
  | some r =>
    refine .modify ⟨⟨(h.accounts.remove hr).unspill id, h.calm, fun i r' hi => ?_,
      fun i j r' r'' hi hj => ?_, h.files, fun i n hi => h.kept i n (hspilled i n hi)⟩,
      fun i hi => ?_⟩
    · exact h.clock i r' (mem_erase hi).2
    · exact h.recency i j r' r'' (mem_erase hi).2 (mem_erase hj).2
    · unfold Store.held
      change (match (s₁.resident.erase id)[i]? with
        | some r => some r.obj
        | none => if ((s₁.spilled.erase id)[i]?).isSome then _ else none) = _
      rw [BTreeMap.getElem?_erase, if_neg (Ne.symm hi), herased i hi]
      rfl
  | none =>
    refine .modify ⟨⟨h.accounts.unspill id, h.calm, h.clock, h.recency, h.files,
      fun i n hi => h.kept i n (hspilled i n hi)⟩, fun i hi => ?_⟩
    unfold Store.held
    change (match s₁.resident[i]? with
      | some r => some r.obj
      | none => if ((s₁.spilled.erase id)[i]?).isSome then _ else none) = _
    rw [herased i hi]

/-! ## Runs -/

/-- One operation: it aborts exactly when it finds no room, and what was held is held on
unless it is deleted. -/
structure Stepped (hash : Bytes → Bytes) (zstd : Zstd) (budget : Nat) (s : Store) (op : Op) :
    Prop where
  next : Spilling hash budget (step hash zstd s op)
  aborts : (∃ msg, answer hash zstd s op = .error (.abort msg)) ↔ ¬ Roomy hash s op
  keeps : ∀ id o, s.held id = some o → op ≠ .delete id → (step hash zstd s op).held id = some o
  stores : ∀ obj id, op = .put obj → answer hash zstd s op = .ok (.id id) →
    id = obj.id hash ∧ ∃ o, (step hash zstd s op).held id = some o ∧ o.encode = obj.encode
  reads : ∀ id o, op = .get id → Roomy hash s op → s.held id = some o →
    answer hash zstd s op = .ok (.object o)

/-- The answer and the next state of an operation, read off its outcome. -/
theorem exec_cases {op : Op} {post : Answer → Store → Prop} {fail : Failure → Store → Prop}
    (h : Outcome (op.exec hash zstd) s post fail) :
    (∃ a, answer hash zstd s op = .ok a ∧ post a (step hash zstd s op)) ∨
      ∃ e, answer hash zstd s op = .error e ∧ fail e (step hash zstd s op) := by
  unfold Outcome at h
  unfold answer step
  cases hrun : op.exec hash zstd s with
  | ok a s' =>
    rw [hrun] at h
    exact .inl ⟨a, rfl, h⟩
  | error e s' =>
    rw [hrun] at h
    exact .inr ⟨e, rfl, h⟩

theorem step_put (hc : CollisionFree hash) (h : Spilling hash budget s) (obj : Object) :
    Stepped hash zstd budget s (.put obj) := by
  have hexec : Outcome ((Op.put obj).exec hash zstd) s
      (fun a s' => a = .id (obj.id hash) ∧ Spilling hash budget s' ∧ Roomy hash s (.put obj) ∧
        ∀ i, s'.held i = if i = obj.id hash ∧ s.held i = none then some obj else s.held i)
      (fun e s' => Spilling hash budget s' ∧ SameHeld s s' ∧ Refused hash s (.put obj) e) :=
    .bind ((put_spilling hc obj h).mono
      (fun _ _ hs => .pure ⟨congrArg Answer.id hs.1, hs.2⟩) (fun _ _ hs => hs))
  rcases exec_cases hexec with ⟨a, ha, rfl, hnext, hroomy, hheld⟩ | ⟨e, he, hnext, hheld, hrefused⟩
  · refine ⟨hnext, ⟨fun ⟨msg, hmsg⟩ => ?_, fun hno => absurd hroomy hno⟩, fun id o ho _ => ?_,
      fun obj' id hput hid => ?_, fun _ _ hget => (by cases hget)⟩
    · rw [ha] at hmsg
      cases hmsg
    · rw [hheld, if_neg (fun hand => by rw [hand.2] at ho; cases ho), ho]
    · cases hput
      rw [ha] at hid
      cases hid
      refine ⟨rfl, ?_⟩
      rw [hheld]
      cases ho : s.held (obj.id hash) with
      | none => exact ⟨obj, by simp, rfl⟩
      | some o => exact ⟨o, by simp, hc o obj (held_id h ho)⟩
  · refine ⟨hnext, ?_, fun id o ho _ => (hheld id).trans ho, fun _ _ _ hid => ?_,
      fun _ _ hget => (by cases hget)⟩
    · rw [he]
      simpa [Refused] using hrefused
    · rw [he] at hid
      cases hid

theorem step_get (hc : CollisionFree hash) (h : Spilling hash budget s) (id : ObjectId) :
    Stepped hash zstd budget s (.get id) := by
  have hexec : Outcome ((Op.get id).exec hash zstd) s
      (fun a s' => Spilling hash budget s' ∧ Roomy hash s (.get id) ∧
        (∃ obj, a = .object obj ∧ s.held id = some obj) ∧ SameHeld s s')
      (fun e s' => Spilling hash budget s' ∧ SameHeld s s' ∧ Refused hash s (.get id) e ∧
        (Roomy hash s (.get id) → s.held id = none)) :=
    .bind ((fetch_spilling hc id h).mono
      (fun obj _ hs => .pure ⟨hs.1, hs.2.1, ⟨obj, rfl, hs.2.2.1⟩, hs.2.2.2⟩) (fun _ _ hs => hs))
  rcases exec_cases hexec with
    ⟨a, ha, hnext, hroomy, ⟨obj, rfl, hobj⟩, hheld⟩ | ⟨e, he, hnext, hheld, hrefused, hnone⟩
  · refine ⟨hnext, ⟨fun ⟨msg, hmsg⟩ => ?_, fun hno => absurd hroomy hno⟩,
      fun i o ho _ => (hheld i).trans ho, fun _ _ hput => (by cases hput), fun i o hget _ ho => ?_⟩
    · rw [ha] at hmsg
      cases hmsg
    · cases hget
      rw [hobj] at ho
      cases ho
      exact ha
  · refine ⟨hnext, ?_, fun i o ho _ => (hheld i).trans ho, fun _ _ hput => (by cases hput),
      fun i o hget hroomy ho => ?_⟩
    · rw [he]
      simpa [Refused] using hrefused
    · cases hget
      rw [hnone hroomy] at ho
      cases ho

theorem step_delete (h : Spilling hash budget s) (id : ObjectId) :
    Stepped hash zstd budget s (.delete id) := by
  have hexec : Outcome ((Op.delete id).exec hash zstd) s
      (fun _ s' => Spilling hash budget s' ∧ ∀ i, i ≠ id → s'.held i = s.held i)
      (fun _ _ => False) :=
    .bind ((delete_spilling id h).mono (fun _ _ hs => .pure hs) (fun _ _ hf => hf))
  have hroomy : Roomy hash s (.delete id) := fun _ hn => by cases hn
  rcases exec_cases hexec with ⟨a, ha, hnext, hheld⟩ | ⟨_, _, hf⟩
  · refine ⟨hnext, ⟨fun ⟨msg, hmsg⟩ => ?_, fun hno => absurd hroomy hno⟩, fun i o ho hne => ?_,
      fun _ _ hput => (by cases hput), fun _ _ hget => (by cases hget)⟩
    · rw [ha] at hmsg
      cases hmsg
    · exact (hheld i (fun hi => hne (by rw [hi]))).trans ho
  · exact hf.elim

theorem step_spilling (zstd : Zstd) (hc : CollisionFree hash) (h : Spilling hash budget s)
    (op : Op) :
    Stepped hash zstd budget s op := by
  cases op with
  | put obj => exact step_put hc h obj
  | get id => exact step_get hc h id
  | delete id => exact step_delete h id

theorem run_spilling (zstd : Zstd) (hc : CollisionFree hash) (ops : List Op)
    (h : Spilling hash budget s) :
    Spilling hash budget (run hash zstd s ops) := by
  induction ops generalizing s with
  | nil => exact h
  | cons op ops ih => exact ih (step_spilling zstd hc h op).next

theorem aborts_iff (hc : CollisionFree hash) (ops : List Op) (h : Spilling hash budget s) :
    Aborts hash zstd s ops ↔ ¬ AllRoomy hash zstd s ops := by
  induction ops generalizing s with
  | nil => simp [Aborts, AllRoomy]
  | cons op ops ih =>
    have hstep := step_spilling zstd hc h op
    rw [Aborts, AllRoomy, hstep.aborts, ih hstep.next, ← not_and_or]

theorem run_keeps (zstd : Zstd) (hc : CollisionFree hash) {id : ObjectId} {o : Object}
    (ops : List Op) (h : Spilling hash budget s) (ho : s.held id = some o) (hops : .delete id ∉ ops) :
    (run hash zstd s ops).held id = some o := by
  induction ops generalizing s with
  | nil => exact ho
  | cons op ops ih =>
    rw [List.mem_cons, not_or] at hops
    have hstep := step_spilling zstd hc h op
    exact ih hstep.next (hstep.keeps id o ho (Ne.symm hops.1)) hops.2

theorem allRoomy_append {ops ops' : List Op} (h : AllRoomy hash zstd s (ops ++ ops')) :
    AllRoomy hash zstd (run hash zstd s ops) ops' := by
  induction ops generalizing s with
  | nil => exact h
  | cons op ops ih => exact ih h.2

end Spilling

/-- A new store with a spill directory, every call succeeding. -/
def newSpilling (budget : Nat) (disk : Disk) : Store :=
  Store.new ⟨budget, .ephemeral .spillTo⟩ disk (fun _ => .done)

/-- Files of the spill directory hold blobs under their address. -/
def CleanSpill (hash : Bytes → Bytes) (disk : Disk) : Prop :=
  ∀ (id : ObjectId) (bytes : Bytes), disk.spill[id]? = some bytes → (Object.blob bytes).id hash = id

theorem newSpilling_spilling {hash : Bytes → Bytes} {disk : Disk} (budget : Nat)
    (hdisk : CleanSpill hash disk) : Spilling hash budget (newSpilling budget disk) where
  accounts := new_accounted disk _
  calm := rfl
  clock id r h := by simp [newSpilling, Store.new] at h
  recency i j r r' h := by simp [newSpilling, Store.new] at h
  files := hdisk
  kept id size h := by simp [newSpilling, Store.new] at h

/-- No operation of a run reaches an unreachable branch exactly when every operation finds its
room; then an object put and not deleted since is got back, with the same canonical bytes. -/
theorem eviction_keeps_iff_roomy {hash : Bytes → Bytes} (hc : CollisionFree hash) (zstd : Zstd)
    (budget : Nat) {disk : Disk} (hdisk : CleanSpill hash disk) (ops : List Op) :
    (¬ Aborts hash zstd (newSpilling budget disk) ops ∧
      ∀ before obj between id later,
        ops = before ++ .put obj :: between ++ .get id :: later →
        answer hash zstd (run hash zstd (newSpilling budget disk) before) (.put obj) =
          .ok (.id id) →
        .delete id ∉ between →
        ∃ o, answer hash zstd (run hash zstd (newSpilling budget disk)
            (before ++ .put obj :: between)) (.get id) = .ok (.object o) ∧
          o.encode = obj.encode) ↔
      AllRoomy hash zstd (newSpilling budget disk) ops := by
  have hnew := newSpilling_spilling budget hdisk
  constructor
  · rintro ⟨hruns, -⟩
    by_contra hno
    exact hruns ((aborts_iff hc ops hnew).mpr hno)
  · intro hall
    refine ⟨fun hab => (aborts_iff hc ops hnew).mp hab hall, ?_⟩
    rintro before obj between id later rfl hput hdelete
    have hbefore := run_spilling zstd hc before hnew
    obtain ⟨-, o, ho, hencode⟩ := (step_spilling zstd hc hbefore (.put obj)).stores
      obj id rfl hput
    have hnext := (step_spilling zstd hc hbefore (.put obj)).next
    have hheld := run_keeps zstd hc between hnext ho hdelete
    have hrun : run hash zstd (newSpilling budget disk) (before ++ .put obj :: between) =
        run hash zstd (step hash zstd (run hash zstd (newSpilling budget disk) before) (.put obj))
          between := by
      rw [run, List.foldl_append, List.foldl_cons]
      rfl
    refine ⟨o, ?_, hencode⟩
    have hroomy := (allRoomy_append hall).1
    rw [hrun] at hroomy ⊢
    exact (step_spilling zstd hc (run_spilling zstd hc between hnext) (.get id)).reads id o rfl hroomy hheld

/-! ## A sealed object in the way -/

/-- A sealed payload of six bytes, then a blob that needs its room. -/
def sealedThenBlob : List Op := [.put (.sealed ⟨[1, 2, 3, 4, 5, 6]⟩), .put (.blob [1, 2, 3, 4, 5, 6])]

def noDisk : Disk := ⟨∅, ∅, ∅, ∅⟩

def plainZstd : Zstd := ⟨fun b => b, some⟩

/-- The digest of short byte strings, none the same. -/
def wholeDigest (b : Bytes) : Bytes := b

/-- The sealed object is the victim, and eviction takes it for unreachable. -/
theorem sealed_victim_aborts :
    Aborts wholeDigest plainZstd (newSpilling 10 noDisk) sealedThenBlob :=
  .inr (.inl ⟨"only blobs are evicted", by decide +kernel⟩)

theorem wholeDigest_collisionFree : CollisionFree wholeDigest := fun _ _ h =>
  congrArg ObjectId.bytes h

theorem noDisk_clean : CleanSpill wholeDigest noDisk := by
  intro id bytes h
  simp [noDisk] at h

theorem eviction_keeps_iff_roomy_blob :
    ∃ o, answer wholeDigest plainZstd (run wholeDigest plainZstd (newSpilling 10 noDisk)
        ([] ++ .put (.blob [1, 2, 3]) :: [])) (.get ((Object.blob [1, 2, 3]).id wholeDigest)) =
          .ok (.object o) ∧ o.encode = (Object.blob [1, 2, 3]).encode := by
  have hget : needs wholeDigest (step wholeDigest plainZstd (newSpilling 10 noDisk)
      (.put (.blob [1, 2, 3]))) (.get ((Object.blob [1, 2, 3]).id wholeDigest)) = none := by
    decide +kernel
  have hroomy : AllRoomy wholeDigest plainZstd (newSpilling 10 noDisk)
      [.put (.blob [1, 2, 3]), .get ((Object.blob [1, 2, 3]).id wholeDigest)] := by
    refine ⟨fun n hn id r hr => ?_, fun n hn => ?_, trivial⟩
    · simp [newSpilling, Store.new] at hr
    · rw [hget] at hn
      cases hn
  exact ((eviction_keeps_iff_roomy wholeDigest_collisionFree plainZstd 10 noDisk_clean _).mpr
    hroomy).2 [] (.blob [1, 2, 3]) [] _ [] rfl (by decide +kernel) (List.not_mem_nil)

end SrcControl.Budgeted
