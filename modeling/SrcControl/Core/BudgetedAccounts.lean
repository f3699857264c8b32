import SrcControl.Core.BudgetedStore

/-!
# The accounts of the store

The byte counter is the sum over the resident objects and within the budget, the resident
and the spilled ids are apart, and a spilled entry records the size of its blob: in every
state of every run, whatever backend, whatever fails and wherever eviction stops.
-/

namespace SrcControl.Budgeted

open Fallible Store

/-! ## What file system calls leave alone -/

/-- Equal up to files, the count of calls and the readiness of the spill directory. -/
structure SameCache (s s' : Store) : Prop where
  cfg : s'.cfg = s.cfg
  resident : s'.resident = s.resident
  spilled : s'.spilled = s.spilled
  clock : s'.clock = s.clock
  bytes : s'.residentBlobBytes = s.residentBlobBytes

theorem SameCache.refl (s : Store) : SameCache s s := ⟨rfl, rfl, rfl, rfl, rfl⟩

theorem SameCache.trans {s s' s'' : Store} (h : SameCache s s') (h' : SameCache s' s'') :
    SameCache s s'' :=
  ⟨h'.cfg.trans h.cfg, h'.resident.trans h.resident, h'.spilled.trans h.spilled,
    h'.clock.trans h.clock, h'.bytes.trans h.bytes⟩

/-- A computation that keeps the cache as it is, also when it fails. -/
def FilesOnly {α : Type} (m : M α) : Prop := ∀ s₀, Preserves (SameCache s₀) m

namespace FilesOnly

variable {α β : Type}

theorem pure (a : α) : FilesOnly (pure a) := fun _ => Preserves.pure a

theorem throw (e : Failure) : FilesOnly (throw e : M α) := fun _ => Preserves.throw e

theorem get : FilesOnly (get : M Store) := fun _ _ hs => hs

theorem modify {g : Store → Store} (h : ∀ s, SameCache s (g s)) : FilesOnly (modify g) :=
  fun _ => Preserves.modify (fun s hs => hs.trans (h s))

theorem bind {m : M α} {f : α → M β} (hm : FilesOnly m) (hf : ∀ a, FilesOnly (f a)) :
    FilesOnly (m >>= f) := fun s₀ => Preserves.bind (hm s₀) (fun a => hf a s₀)

theorem ite {c : Prop} [Decidable c] {m m' : M α} (hm : FilesOnly m) (hm' : FilesOnly m') :
    FilesOnly (if c then m else m') := fun s₀ => Preserves.ite (hm s₀) (hm' s₀)

/-- As an outcome from the state it starts in. -/
theorem outcome {m : M α} (hm : FilesOnly m) (s : Store) :
    Outcome m s (fun _ s' => SameCache s s') (fun _ s' => SameCache s s') := by
  have h := hm s s (SameCache.refl s)
  unfold Outcome
  cases hrun : m s with
  | ok a s' => exact hm s |>.ok (SameCache.refl s) hrun
  | error e s' => exact hm s |>.error (SameCache.refl s) hrun

end FilesOnly

theorem call_filesOnly : FilesOnly call :=
  .bind .get (fun _ => .bind (.modify (fun _ => ⟨rfl, rfl, rfl, rfl, rfl⟩)) (fun _ => .pure _))

theorem attempt_filesOnly : FilesOnly attempt := by
  refine .bind call_filesOnly (fun result => ?_)
  cases result with
  | done => exact .pure _
  | failed => exact .throw _
  | torn => exact .throw _

theorem writeSpillFile_filesOnly (id : ObjectId) (bytes : Bytes) :
    FilesOnly (writeSpillFile id bytes) := by
  refine .bind call_filesOnly (fun result => ?_)
  cases result with
  | done => exact .modify (fun _ => ⟨rfl, rfl, rfl, rfl, rfl⟩)
  | failed => exact .throw _
  | torn left => exact .bind (.modify (fun _ => ⟨rfl, rfl, rfl, rfl, rfl⟩)) (fun _ => .throw _)

theorem writeLooseFile_filesOnly (id : ObjectId) (bytes : Bytes) :
    FilesOnly (writeLooseFile id bytes) := by
  refine .bind call_filesOnly (fun result => ?_)
  cases result with
  | done => exact .modify (fun _ => ⟨rfl, rfl, rfl, rfl, rfl⟩)
  | failed => exact .throw _
  | torn left => exact .bind (.modify (fun _ => ⟨rfl, rfl, rfl, rfl, rfl⟩)) (fun _ => .throw _)

theorem writeSpill_filesOnly (id : ObjectId) (bytes : Bytes) : FilesOnly (writeSpill id bytes) := by
  have hdir : FilesOnly ensureSpillDir := by
    refine .bind .get (fun s => .ite (.pure _) ?_)
    exact .bind attempt_filesOnly (fun _ => .modify (fun _ => ⟨rfl, rfl, rfl, rfl, rfl⟩))
  exact .bind hdir (fun _ => .bind .get (fun s => .ite (.pure _) (writeSpillFile_filesOnly id bytes)))

theorem writeObjectFile_filesOnly (zstd : Zstd) (id : ObjectId) (bytes : Bytes) :
    FilesOnly (writeObjectFile zstd id bytes) :=
  .bind .get (fun _ => .ite (.pure _)
    (.bind attempt_filesOnly (fun _ => writeLooseFile_filesOnly id _)))

theorem ofExcept_filesOnly {α : Type} (r : Except CoreError α) : FilesOnly (ofExcept r) := by
  cases r with
  | ok a => exact .pure a
  | error e => exact .throw _

theorem loadObject_filesOnly (hash : Bytes → Bytes) (zstd : Zstd) (id : ObjectId) :
    FilesOnly (loadObject hash zstd id) := by
  refine .bind .get (fun s => ?_)
  cases s.existingLoose id with
  | some raw => exact .bind attempt_filesOnly (fun _ => ofExcept_filesOnly _)
  | none =>
    refine .bind .get (fun s => ?_)
    cases s.disk.packed[id]? with
    | none => exact .throw _
    | some payload =>
      refine .bind attempt_filesOnly (fun _ => ?_)
      cases zstd.decompress payload with
      | none => exact .throw _
      | some canonical => exact ofExcept_filesOnly _

theorem removeLoose_filesOnly (id : ObjectId) : FilesOnly (removeLoose id) := by
  refine .bind .get (fun s => .ite (.bind attempt_filesOnly (fun _ => .modify (fun s => ?_)))
    (.pure _))
  unfold unlinkLoose
  split_ifs <;> exact ⟨rfl, rfl, rfl, rfl, rfl⟩

/-- A blob read back from the spill directory has the address it was asked for. -/
theorem readSpill_outcome (hash : Bytes → Bytes) (id : ObjectId) (s : Store) :
    Outcome (readSpill hash id) s
      (fun obj s' => SameCache s s' ∧ ∃ bytes, obj = .blob bytes ∧ obj.id hash = id)
      (fun _ s' => SameCache s s') := by
  refine .bind ((attempt_filesOnly.outcome s).mono (fun _ s' hs => ?_) (fun _ _ hs => hs))
  refine .bind (.get ?_)
  cases s'.disk.spill[id]? with
  | none => exact .throw hs
  | some bytes =>
    by_cases hid : (Object.blob bytes).id hash = id
    · simp only [hid, if_true]
      exact .pure ⟨hs, bytes, rfl, hid⟩
    · simp only [hid, if_false]
      exact .throw hs

/-! ## The invariant -/

/-- The sum of `blob_size` over the resident objects. -/
def Store.totalBlobSize (s : Store) : Nat := s.resident.total (·.blobSize)

/-- The length of a blob with the address. -/
def BlobLength (hash : Bytes → Bytes) (id : ObjectId) (size : Nat) : Prop :=
  ∃ bytes, (Object.blob bytes).id hash = id ∧ size = bytes.length

structure Accounted (hash : Bytes → Bytes) (cfg : StoreConfig) (s : Store) : Prop where
  config : s.cfg = cfg
  bytes : s.residentBlobBytes = s.totalBlobSize
  sizes : ∀ (id : ObjectId) (r : Resident), s.resident[id]? = some r →
    r.blobSize = r.obj.blobSize ∨ BlobLength hash id r.blobSize
  budget : s.residentBlobBytes ≤ cfg.budgetBytes
  apart : ∀ (id : ObjectId) (r : Resident), s.resident[id]? = some r → s.spilled[id]? = none
  spilled : ∀ (id : ObjectId) (size : Nat), s.spilled[id]? = some size → BlobLength hash id size
  address : cfg.backend ≠ .persistent →
    ∀ (id : ObjectId) (r : Resident), s.resident[id]? = some r → r.obj.id hash = id

section Accounts

variable {hash : Bytes → Bytes} {zstd : Zstd} {cfg : StoreConfig} {s s' : Store}

theorem new_accounted (disk : Disk) (faults : Nat → IoResult) :
    Accounted hash cfg (Store.new cfg disk faults) where
  config := rfl
  bytes := (BTreeMap.total_empty _).symm
  sizes id r h := by simp [Store.new] at h
  budget := Nat.zero_le _
  apart id r h := by simp [Store.new] at h
  spilled id size h := by simp [Store.new] at h
  address _ id r h := by simp [Store.new] at h

theorem Accounted.sameCache (h : Accounted hash cfg s) (hs : SameCache s s') :
    Accounted hash cfg s' where
  config := hs.cfg.trans h.config
  bytes := by rw [hs.bytes, h.bytes, totalBlobSize, totalBlobSize, hs.resident]
  sizes := by rw [hs.resident]; exact h.sizes
  budget := hs.bytes ▸ h.budget
  apart := by rw [hs.resident, hs.spilled]; exact h.apart
  spilled := by rw [hs.spilled]; exact h.spilled
  address := by rw [hs.resident]; exact h.address

/-- An object put in at the next tick, its bytes counted. -/
theorem Accounted.insert (h : Accounted hash cfg s) {id : ObjectId} {obj : Object}
    (hnew : s.resident[id]? = none) (hspilled : s.spilled[id]? = none)
    {size : Nat} (hroom : s.residentBlobBytes + size ≤ cfg.budgetBytes)
    (hid : cfg.backend ≠ .persistent → obj.id hash = id)
    (hsize : size = obj.blobSize ∨ BlobLength hash id size) :
    Accounted hash cfg ({ s with residentBlobBytes := s.residentBlobBytes + size }.insertResident
      id obj size) := by
  have hrow : ∀ (i : ObjectId) (r : Resident), (s.resident.insert id ⟨obj, size, s.clock + 1⟩)[i]? = some r →
      (i = id ∧ r = ⟨obj, size, s.clock + 1⟩) ∨ s.resident[i]? = some r := by
    intro i r hi
    rw [BTreeMap.getElem?_insert] at hi
    split_ifs at hi with hik
    · exact .inl ⟨hik.symm, (Option.some.inj hi).symm⟩
    · exact .inr hi
  refine ⟨h.config, ?_, fun i r hi => ?_, hroom, fun i r hi => ?_, h.spilled, fun hb i r hi => ?_⟩
  · change s.residentBlobBytes + size = BTreeMap.total _ (s.resident.insert id _)
    rw [BTreeMap.total_insert hnew, h.bytes, Nat.add_comm]
    rfl
  · rcases hrow i r hi with ⟨rfl, rfl⟩ | hold
    · exact hsize
    · exact h.sizes i r hold
  · rcases hrow i r hi with ⟨rfl, -⟩ | hold
    · exact hspilled
    · exact h.apart i r hold
  · rcases hrow i r hi with ⟨rfl, rfl⟩ | hold
    · exact hid hb
    · exact h.address hb i r hold

theorem mem_erase {m : BTreeMap ObjectId Resident} {id i : ObjectId} {r : Resident}
    (h : (m.erase id)[i]? = some r) : i ≠ id ∧ m[i]? = some r := by
  rw [BTreeMap.getElem?_erase] at h
  split_ifs at h with hik
  exact ⟨fun he => hik he.symm, h⟩

/-- An object out of memory, its bytes off the sum. -/
theorem Accounted.remove (h : Accounted hash cfg s) {id : ObjectId} {r : Resident}
    (hr : s.resident[id]? = some r) : Accounted hash cfg (s.removeResident id r) := by
  have hsum : s.totalBlobSize = r.blobSize + (s.removeResident id r).totalBlobSize :=
    BTreeMap.total_erase hr
  refine ⟨h.config, ?_, fun i r' hi => h.sizes i r' (mem_erase hi).2, ?_,
    fun i r' hi => h.apart i r' (mem_erase hi).2, h.spilled,
    fun hb i r' hi => h.address hb i r' (mem_erase hi).2⟩
  · change s.residentBlobBytes - r.blobSize = _
    rw [h.bytes, hsum, Nat.add_sub_cancel_left]
  · exact (Nat.sub_le _ _).trans h.budget

/-- The object gone to the spill directory. -/
theorem Accounted.spill (h : Accounted hash cfg s) {id : ObjectId} {r : Resident} {bytes : Bytes}
    (hr : s.resident[id]? = some r) (hobj : r.obj = .blob bytes) (hb : cfg.backend ≠ .persistent) :
    Accounted hash cfg { s.removeResident id r with
      spilled := s.spilled.insert id r.blobSize
      evictions := s.evictions + 1 } := by
  have hrem := h.remove hr
  refine ⟨hrem.config, hrem.bytes, hrem.sizes, hrem.budget, fun i r' hi => ?_, fun i size hi => ?_,
    hrem.address⟩
  · change (s.spilled.insert id r.blobSize)[i]? = none
    rw [BTreeMap.getElem?_insert, if_neg (fun he : id = i => (mem_erase hi).1 he.symm)]
    exact h.apart i r' (mem_erase hi).2
  · change (s.spilled.insert id r.blobSize)[i]? = some size at hi
    rw [BTreeMap.getElem?_insert] at hi
    split_ifs at hi with hid
    · cases hi
      subst hid
      have hown := h.address hb id r hr
      rw [hobj] at hown
      rcases h.sizes id r hr with hsize | hlength
      · exact ⟨bytes, hown, by rw [hsize, hobj]; rfl⟩
      · exact hlength
    · exact h.spilled i size hi

theorem Accounted.unspill (h : Accounted hash cfg s) (id : ObjectId) :
    Accounted hash cfg { s with spilled := s.spilled.erase id } := by
  refine ⟨h.config, h.bytes, h.sizes, h.budget, fun i r hi => ?_, fun i n hi => ?_, h.address⟩
  · change (s.spilled.erase id)[i]? = none
    rw [BTreeMap.getElem?_erase, h.apart i r hi, ite_self]
  · change (s.spilled.erase id)[i]? = some n at hi
    rw [BTreeMap.getElem?_erase] at hi
    split_ifs at hi
    exact h.spilled i n hi

/-! ## Eviction -/

theorem victim_some {incoming id : ObjectId} (h : s.victim incoming = some id) :
    ∃ r, s.resident[id]? = some r ∧ 0 < r.blobSize ∧ id ≠ incoming ∧
      ∀ (i : ObjectId) (r' : Resident), s.resident[i]? = some r' → 0 < r'.blobSize →
        i ≠ incoming → r.lastUsed ≤ r'.lastUsed := by
  obtain ⟨⟨id', r⟩, hmin, rfl⟩ := Option.map_eq_some_iff.mp h
  have hmem := List.mem_filter.mp (List.argmin_mem hmin)
  have hevictable : 0 < r.blobSize ∧ id' ≠ incoming := by simpa [evictable] using hmem.2
  refine ⟨r, (BTreeMap.mem_toList_iff _ _ _).mp hmem.1, hevictable.1, hevictable.2, ?_⟩
  intro i r' hi hpos hne
  have hother : (i, r') ∈ s.resident.toList.filter (evictable incoming) :=
    List.mem_filter.mpr ⟨(BTreeMap.mem_toList_iff _ _ _).mpr hi, by simp [evictable, hpos, hne]⟩
  exact List.le_of_mem_argmin (f := fun row : ObjectId × Resident => row.2.lastUsed) hother hmin

theorem victim_none {incoming : ObjectId} (h : s.victim incoming = none) {i : ObjectId}
    {r : Resident} (hi : s.resident[i]? = some r) (hne : i ≠ incoming) : r.blobSize = 0 := by
  have hempty := List.argmin_eq_none.mp (Option.map_eq_none_iff.mp h)
  by_contra hpos
  have hmem : (i, r) ∈ s.resident.toList.filter (evictable incoming) :=
    List.mem_filter.mpr ⟨(BTreeMap.mem_toList_iff _ _ _).mpr hi,
      by simp [evictable, hne, Nat.pos_of_ne_zero hpos]⟩
  rw [hempty] at hmem
  cases hmem

/-- An id out of memory stays out, and spilled or not as it was. -/
def Shrunk (s s' : Store) : Prop :=
  ∀ id : ObjectId, s.resident[id]? = none →
    s'.resident[id]? = none ∧ s'.spilled[id]? = s.spilled[id]?

theorem Shrunk.refl (s : Store) : Shrunk s s := fun _ h => ⟨h, rfl⟩

theorem Shrunk.trans {s s' s'' : Store} (h : Shrunk s s') (h' : Shrunk s' s'') : Shrunk s s'' := by
  intro id hid
  obtain ⟨hout, hsame⟩ := h id hid
  obtain ⟨hout', hsame'⟩ := h' id hout
  exact ⟨hout', hsame'.trans hsame⟩

theorem SameCache.shrunk (h : SameCache s s') : Shrunk s s' := by
  intro id hid
  rw [h.resident, h.spilled]
  exact ⟨hid, rfl⟩

theorem absent_erase {m : BTreeMap ObjectId Resident} {id i : ObjectId} (h : m[i]? = none) :
    (m.erase id)[i]? = none := by
  rw [BTreeMap.getElem?_erase, h, ite_self]

theorem evictToSpill_outcome (h : Accounted hash cfg s) (hb : cfg.backend ≠ .persistent)
    (id : ObjectId) :
    Outcome (evictToSpill id) s (fun _ s' => Accounted hash cfg s' ∧ Shrunk s s')
      (fun _ s' => Accounted hash cfg s') := by
  refine .bind (.get ?_)
  cases hr : s.resident[id]? with
  | none => exact .throw h
  | some r =>
    cases hobj : r.obj with
    | blob bytes =>
      simp only [hobj]
      refine .bind (((writeSpill_filesOnly id bytes).outcome s).mono (fun _ s₁ hs => ?_)
        (fun _ s₁ hs => h.sameCache hs))
      have hr₁ : s₁.resident[id]? = some r := by rw [hs.resident, hr]
      refine .modify ⟨(h.sameCache hs).spill hr₁ hobj hb, hs.shrunk.trans ?_⟩
      intro i hi
      refine ⟨absent_erase hi, ?_⟩
      have hne : id ≠ i := fun he => by rw [he, hi] at hr₁; cases hr₁
      change (s₁.spilled.insert id r.blobSize)[i]? = s₁.spilled[i]?
      rw [BTreeMap.getElem?_insert, if_neg hne]
    | _ =>
      simp only [hobj]
      exact .throw h

theorem dropResidentBlob_outcome (h : Accounted hash cfg s) (id : ObjectId) :
    Outcome (dropResidentBlob id) s (fun _ s' => Accounted hash cfg s' ∧ Shrunk s s')
      (fun _ s' => Accounted hash cfg s') := by
  refine .bind (.get ?_)
  cases hr : s.resident[id]? with
  | none => exact .pure ⟨h, .refl s⟩
  | some r =>
    refine .modify ⟨(h.remove hr).sameCache ⟨rfl, rfl, rfl, rfl, rfl⟩, fun i hi => ?_⟩
    exact ⟨absent_erase hi, rfl⟩

/-- Wherever eviction stops, the accounts hold; when it returns there is room. -/
theorem ensureCapacityLoop_outcome {needed : Nat} {incoming : ObjectId} (fuel : Nat)
    (h : Accounted hash cfg s) :
    Outcome (ensureCapacityLoop needed incoming fuel) s
      (fun _ s' => Accounted hash cfg s' ∧ Shrunk s s' ∧
        s'.residentBlobBytes + needed ≤ cfg.budgetBytes)
      (fun _ s' => Accounted hash cfg s') := by
  induction fuel generalizing s with
  | zero => exact .throw h
  | succ fuel ih =>
    refine .bind (.get ?_)
    have hnext : ∀ s₁, Accounted hash cfg s₁ ∧ Shrunk s s₁ →
        Outcome (ensureCapacityLoop needed incoming fuel) s₁
          (fun _ s' => Accounted hash cfg s' ∧ Shrunk s s' ∧
            s'.residentBlobBytes + needed ≤ cfg.budgetBytes)
          (fun _ s' => Accounted hash cfg s') := fun s₁ hs =>
      (ih hs.1).mono (fun _ s' hs' => ⟨hs'.1, hs.2.trans hs'.2.1, hs'.2.2⟩) (fun _ _ hs' => hs')
    by_cases hroom : s.residentBlobBytes + needed ≤ s.cfg.budgetBytes
    · rw [if_pos hroom]
      exact .pure ⟨h, .refl s, h.config ▸ hroom⟩
    · rw [if_neg hroom]
      cases s.victim incoming with
      | none => exact .throw h
      | some id =>
        cases hb : s.cfg.backend with
        | ephemeral policy =>
          cases policy with
          | disallow => exact .throw h
          | spillTo =>
            have hspills : cfg.backend ≠ .persistent := by rw [← h.config, hb]; simp
            exact .bind ((evictToSpill_outcome h hspills id).mono (fun _ => hnext) (fun _ _ hs => hs))
        | persistent =>
          exact .bind ((dropResidentBlob_outcome h id).mono (fun _ => hnext) (fun _ _ hs => hs))

theorem ensureCapacity_outcome {needed : Nat} {incoming : ObjectId} (h : Accounted hash cfg s) :
    Outcome (ensureCapacity needed incoming) s
      (fun _ s' => Accounted hash cfg s' ∧ Shrunk s s' ∧
        s'.residentBlobBytes + needed ≤ cfg.budgetBytes)
      (fun _ s' => Accounted hash cfg s') := by
  refine .bind (.get ?_)
  by_cases hroom : s.residentBlobBytes + needed ≤ s.cfg.budgetBytes
  · rw [if_pos hroom]
    exact .pure ⟨h, .refl s, h.config ▸ hroom⟩
  · rw [if_neg hroom]
    exact ensureCapacityLoop_outcome _ h

/-- Room for `size` more bytes, already counted. -/
structure Reserved (hash : Bytes → Bytes) (cfg : StoreConfig) (s : Store) (size : Nat)
    (s' : Store) : Prop where
  counted : ∃ s₁, Accounted hash cfg s₁ ∧ Shrunk s s₁ ∧
    s₁.residentBlobBytes + size ≤ cfg.budgetBytes ∧
    s' = { s₁ with residentBlobBytes := s₁.residentBlobBytes + size }

theorem reserve_outcome {size : Nat} {id : ObjectId} (h : Accounted hash cfg s) :
    Outcome (reserve size id) s (fun _ s' => Reserved hash cfg s size s')
      (fun _ s' => Accounted hash cfg s') := by
  unfold reserve
  by_cases hpos : 0 < size
  · rw [if_pos hpos]
    refine .bind ((ensureCapacity_outcome h).mono (fun _ s₁ hs => ?_) (fun _ _ hs => hs))
    exact .modify ⟨s₁, hs.1, hs.2.1, hs.2.2, rfl⟩
  · rw [if_neg hpos, Nat.eq_zero_of_not_pos hpos]
    exact .pure ⟨s, h, .refl s, h.budget, rfl⟩

/-! ## Operations -/

theorem put_outcome (obj : Object) (h : Accounted hash cfg s) :
    Outcome (put hash zstd obj) s (fun _ s' => Accounted hash cfg s')
      (fun _ s' => Accounted hash cfg s') := by
  refine .bind (.get ?_)
  by_cases hknown : (s.resident.contains (obj.id hash) || s.spilled.contains (obj.id hash)) = true
  · simp only [hknown, if_true]
    exact .pure h
  · simp only [hknown]
    by_cases hloose : (s.isPersistent && (s.existingLoose (obj.id hash)).isSome) = true
    · simp only [hloose, if_true]
      exact .pure h
    · simp only [hloose]
      have habsent : s.resident[obj.id hash]? = none ∧ s.spilled[obj.id hash]? = none := by
        simpa using hknown
      have hwrite : FilesOnly (writeThrough zstd (obj.id hash) obj) :=
        .bind .get (fun _ => .ite (writeObjectFile_filesOnly zstd _ _) (.pure ()))
      refine .bind ((hwrite.outcome s).mono (fun _ s₁ hs₁ => ?_)
        (fun _ s₁ hs₁ => h.sameCache hs₁))
      refine .bind ((reserve_outcome (h.sameCache hs₁)).mono (fun _ s₂ hs₂ => ?_)
        (fun _ _ hs₂ => hs₂))
      obtain ⟨s₃, h₃, hshrunk, hroom, rfl⟩ := hs₂.counted
      obtain ⟨hout, hsame⟩ := (hs₁.shrunk.trans hshrunk) _ habsent.1
      refine .bind (.modify (.pure ?_))
      exact h₃.insert hout (hsame.trans habsent.2) hroom (fun _ => rfl) (.inl rfl)

theorem rehydrateSpill_outcome {id : ObjectId} {size : Nat} (h : Accounted hash cfg s)
    (hout : s.resident[id]? = none) (hspilled : s.spilled[id]? = some size) :
    Outcome (rehydrateSpill hash id size) s (fun _ s' => Accounted hash cfg s')
      (fun _ s' => Accounted hash cfg s') := by
  refine .bind ((readSpill_outcome hash id s).mono (fun obj s₁ hs₁ => ?_)
    (fun _ s₁ hs₁ => h.sameCache hs₁))
  obtain ⟨hs₁, -, -, hid⟩ := hs₁
  refine .bind ((ensureCapacity_outcome (h.sameCache hs₁)).mono (fun _ s₂ hs₂ => ?_)
    (fun _ _ hs₂ => hs₂))
  obtain ⟨h₂, hshrunk, hroom⟩ := hs₂
  have hout₂ := ((hs₁.shrunk.trans hshrunk) id hout).1
  have hgone : (s₂.spilled.erase id)[id]? = none := by rw [BTreeMap.getElem?_erase, if_pos rfl]
  refine .bind (.modify (.bind (.modify (.pure ?_))))
  exact ((h₂.unspill id).insert hout₂ hgone hroom (fun _ => hid)
    (.inr (h.spilled id size hspilled))).sameCache ⟨rfl, rfl, rfl, rfl, rfl⟩

theorem rehydratePersistent_outcome {id : ObjectId} (h : Accounted hash cfg s)
    (hout : s.resident[id]? = none) (hspilled : s.spilled[id]? = none)
    (hb : cfg.backend = .persistent) :
    Outcome (rehydratePersistent hash zstd id) s (fun _ s' => Accounted hash cfg s')
      (fun _ s' => Accounted hash cfg s') := by
  refine .bind (((loadObject_filesOnly hash zstd id).outcome s).mono (fun obj s₁ hs₁ => ?_)
    (fun _ s₁ hs₁ => h.sameCache hs₁))
  refine .bind ((reserve_outcome (h.sameCache hs₁)).mono (fun _ s₂ hs₂ => ?_) (fun _ _ hs₂ => hs₂))
  obtain ⟨s₃, h₃, hshrunk, hroom, rfl⟩ := hs₂.counted
  obtain ⟨hout₃, hsame⟩ := (hs₁.shrunk.trans hshrunk) id hout
  refine .bind (.modify (.bind (.modify (.pure ?_))))
  exact (h₃.insert hout₃ (hsame.trans hspilled) hroom (fun hne => absurd hb hne)
    (.inl rfl)).sameCache ⟨rfl, rfl, rfl, rfl, rfl⟩

theorem Accounted.touch (h : Accounted hash cfg s) {id : ObjectId} {r : Resident}
    (hr : s.resident[id]? = some r) : Accounted hash cfg (s.touch id r) := by
  have hrow : ∀ (i : ObjectId) (r' : Resident), (s.touch id r).resident[i]? = some r' →
      ∃ r₀, s.resident[i]? = some r₀ ∧ r'.obj = r₀.obj ∧ r'.blobSize = r₀.blobSize := by
    intro i r' hi
    change (s.resident.insert id _)[i]? = some r' at hi
    rw [BTreeMap.getElem?_insert] at hi
    split_ifs at hi with hid
    · cases hi
      exact ⟨r, hid ▸ hr, rfl, rfl⟩
    · exact ⟨r', hi, rfl, rfl⟩
  refine ⟨h.config, ?_, fun i r' hi => ?_, h.budget, fun i r' hi => ?_, h.spilled,
    fun hb i r' hi => ?_⟩
  · have hsum : (s.touch id r).totalBlobSize + r.blobSize = s.totalBlobSize + r.blobSize :=
      BTreeMap.total_replace hr
    exact h.bytes.trans (Nat.add_right_cancel hsum).symm
  · obtain ⟨r₀, hr₀, hobj, hsize⟩ := hrow i r' hi
    rw [hobj, hsize]
    exact h.sizes i r₀ hr₀
  · obtain ⟨r₀, hr₀, -, -⟩ := hrow i r' hi
    exact h.apart i r₀ hr₀
  · obtain ⟨r₀, hr₀, hobj, -⟩ := hrow i r' hi
    rw [hobj]
    exact h.address hb i r₀ hr₀

theorem fetch_outcome (id : ObjectId) (h : Accounted hash cfg s) :
    Outcome (fetch hash zstd id) s (fun _ s' => Accounted hash cfg s')
      (fun _ s' => Accounted hash cfg s') := by
  refine .bind (.get ?_)
  cases hr : s.resident[id]? with
  | some r => exact .bind (.modify (.pure (h.touch hr)))
  | none =>
    cases hspilled : s.spilled[id]? with
    | some size => exact rehydrateSpill_outcome h hr hspilled
    | none =>
      by_cases hb : s.isPersistent = true
      · simp only [hb, if_true]
        refine rehydratePersistent_outcome h hr hspilled ?_
        rw [← h.config]
        simpa [isPersistent] using hb
      · simp only [hb]
        exact .throw h

theorem delete_outcome (id : ObjectId) (h : Accounted hash cfg s) :
    Outcome (Budgeted.delete id) s (fun _ s' => Accounted hash cfg s')
      (fun _ s' => Accounted hash cfg s') := by
  refine .bind (((removeLoose_filesOnly id).outcome s).mono (fun _ s₁ hs₁ => ?_)
    (fun _ s₁ hs₁ => h.sameCache hs₁))
  refine .bind (.get ?_)
  cases hr : s₁.resident[id]? with
  | some r => exact .modify (((h.sameCache hs₁).remove hr).unspill id)
  | none => exact .modify ((h.sameCache hs₁).unspill id)

/-! ## Runs -/

theorem step_accounted (op : Op) (h : Accounted hash cfg s) :
    Accounted hash cfg (step hash zstd s op) := by
  have hexec : Outcome (op.exec hash zstd) s (fun _ s' => Accounted hash cfg s')
      (fun _ s' => Accounted hash cfg s') := by
    cases op with
    | put obj => exact .bind ((put_outcome obj h).mono (fun _ _ hs => .pure hs) (fun _ _ hs => hs))
    | get id => exact .bind ((fetch_outcome id h).mono (fun _ _ hs => .pure hs) (fun _ _ hs => hs))
    | delete id =>
      exact .bind ((delete_outcome id h).mono (fun _ _ hs => .pure hs) (fun _ _ hs => hs))
  unfold Outcome at hexec
  unfold step
  cases hrun : op.exec hash zstd s with
  | ok a s' => simpa only [hrun] using hexec
  | error e s' => simpa only [hrun] using hexec

theorem run_accounted (zstd : Zstd) (ops : List Op) (h : Accounted hash cfg s) :
    Accounted hash cfg (run hash zstd s ops) := by
  induction ops generalizing s with
  | nil => exact h
  | cons op ops ih => exact ih (step_accounted op h)

end Accounts

/-- In every state of every run of an initially empty store the counter of resident bytes is
the sum over the resident objects and within the budget, no id is both resident and spilled,
and a spilled entry has the length of its blob. Each resident object is counted by its own
size or, where two blobs share an address, by the length of a blob of its address. -/
theorem accounts_hold (hash : Bytes → Bytes) (zstd : Zstd) (cfg : StoreConfig) (disk : Disk)
    (faults : Nat → IoResult) (ops : List Op) :
    let s := run hash zstd (Store.new cfg disk faults) ops
    s.residentBlobBytes = s.totalBlobSize ∧ s.residentBlobBytes ≤ cfg.budgetBytes ∧
      (∀ id : ObjectId, ¬ (s.resident.contains id = true ∧ s.spilled.contains id = true)) ∧
      (∀ (id : ObjectId) (size : Nat), s.spilled[id]? = some size → BlobLength hash id size) ∧
      ∀ (id : ObjectId) (r : Resident), s.resident[id]? = some r →
        r.blobSize = r.obj.blobSize ∨ BlobLength hash id r.blobSize := by
  have hnew : Accounted hash cfg (Store.new cfg disk faults) := new_accounted disk faults
  have h := run_accounted zstd ops hnew
  refine ⟨h.bytes, h.budget, fun id ⟨hres, hspill⟩ => ?_, h.spilled, h.sizes⟩
  rw [Std.ExtTreeMap.contains_eq_isSome_getElem?] at hres hspill
  obtain ⟨r, hr⟩ := Option.isSome_iff_exists.mp hres
  rw [h.apart id r hr] at hspill
  cases hspill

end SrcControl.Budgeted
