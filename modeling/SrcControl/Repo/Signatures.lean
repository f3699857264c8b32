import SrcControl.Core.IdText

/-!
# The signature index

Which signatures a store accepts, and the index that keeps one slot for each target and
signer. Objects are content-addressed: `content` says what an id names, and a store is the
set of ids it holds.
-/

namespace SrcControl.Signatures

abbrev Signer := Bytes

/-- One index entry. -/
structure Entry where
  target : ObjectId
  sig : ObjectId
  signer : Signer
deriving DecidableEq

/-- The checks of the crypto library, and the digest a drop signature covers. -/
structure Crypto where
  verifySnapshotSig : Signer → Bytes → Bytes → Bool
  verifyTranscriptSig : Signer → Bytes → Bytes → Bool
  dropDigest : ObjectId → Bytes

variable (cr : Crypto) (content : ObjectId → Object)

/-- Whether the signature verifies in the domain of its target's kind. -/
def verifies (sig : SignatureObj) : Bool :=
  match content sig.snapshot with
  | .snapshot _ => cr.verifySnapshotSig sig.signer sig.snapshot.bytes sig.sig
  | .transcript t =>
    if t.droppedId.isSome then
      cr.verifyTranscriptSig sig.signer (cr.dropDigest sig.snapshot) sig.sig
    else cr.verifyTranscriptSig sig.signer sig.snapshot.bytes sig.sig
  | _ => false

/-- Whether `sig` may enter the index: its target is held and it verifies. -/
def acceptable (held : List ObjectId) (sig : SignatureObj) : Bool :=
  held.contains sig.snapshot && verifies cr content sig

def verifyIncoming (held ids : List ObjectId) : List Entry :=
  ids.filterMap (fun id =>
    match content id with
    | .signature sig =>
      if acceptable cr content held sig then some ⟨sig.snapshot, id, sig.signer⟩ else none
    | _ => none)

/-- Whether the signer's slot over the target is taken. -/
def hasSlot (entries : List Entry) (target : ObjectId) (signer : Signer) : Bool :=
  entries.any (fun e => e.target = target ∧ e.signer = signer)

/-- The first entry keeps the slot. -/
def addEntry (entries : List Entry) (e : Entry) : List Entry :=
  if hasSlot entries e.target e.signer then entries else entries ++ [e]

/-- The entries that `append_entries` leaves. -/
def appendEntries (entries new : List Entry) : List Entry := new.foldl addEntry entries

/-- Whether any signature is indexed over `target`. -/
def isSigned (entries : List Entry) (target : ObjectId) : Bool :=
  entries.any (fun e => e.target = target)

/-- `SigIndex::by`: the entry inserted last holds the key. -/
def «by» (entries : List Entry) (target : ObjectId) (signer : Signer) : Option ObjectId :=
  ((entries.filter (fun e => e.target = target ∧ e.signer = signer)).getLast?).map (·.sig)

variable {cr content}

theorem acceptable_iff {held : List ObjectId} {sig : SignatureObj} :
    acceptable cr content held sig = true ↔
      sig.snapshot ∈ held ∧ verifies cr content sig = true := by
  simp [acceptable]

theorem mem_verifyIncoming {held ids : List ObjectId} {e : Entry} :
    e ∈ verifyIncoming cr content held ids ↔ e.sig ∈ ids ∧ ∃ sig, content e.sig = .signature sig ∧
      sig.snapshot = e.target ∧ sig.signer = e.signer ∧ acceptable cr content held sig = true := by
  simp only [verifyIncoming, List.mem_filterMap]
  constructor
  · rintro ⟨id, hid, h⟩
    split at h
    · next sig hsig =>
      split at h
      · next ha =>
        cases h
        exact ⟨hid, sig, hsig, rfl, rfl, ha⟩
      · cases h
    · cases h
  · rintro ⟨hid, sig, hsig, ht, hs, ha⟩
    refine ⟨e.sig, hid, ?_⟩
    simp only [hsig, if_pos ha, ht, hs]

theorem hasSlot_iff {entries : List Entry} {target : ObjectId} {signer : Signer} :
    hasSlot entries target signer = true ↔ ∃ e ∈ entries, e.target = target ∧ e.signer = signer := by
  simp [hasSlot]

theorem isSigned_iff {entries : List Entry} {target : ObjectId} :
    isSigned entries target = true ↔ ∃ e ∈ entries, e.target = target := by
  simp [isSigned]

theorem addEntry_subset (entries : List Entry) (e : Entry) : entries ⊆ addEntry entries e := by
  unfold addEntry
  split
  · exact List.Subset.refl _
  · exact List.subset_append_left _ _

theorem mem_addEntry {entries : List Entry} {e x : Entry} (h : x ∈ addEntry entries e) :
    x ∈ entries ∨ x = e := by
  unfold addEntry at h
  split at h
  · exact Or.inl h
  · simpa using h

theorem hasSlot_addEntry (entries : List Entry) (e : Entry) :
    hasSlot (addEntry entries e) e.target e.signer = true := by
  unfold addEntry
  split
  · next h => exact h
  · exact hasSlot_iff.mpr ⟨e, by simp, rfl, rfl⟩

theorem appendEntries_subset (entries new : List Entry) : entries ⊆ appendEntries entries new := by
  induction new generalizing entries with
  | nil => exact List.Subset.refl _
  | cons e new ih => exact List.Subset.trans (addEntry_subset entries e) (ih _)

theorem mem_appendEntries {entries new : List Entry} {x : Entry}
    (h : x ∈ appendEntries entries new) : x ∈ entries ∨ x ∈ new := by
  induction new generalizing entries with
  | nil => exact Or.inl h
  | cons e new ih =>
    rcases ih h with h | h
    · rcases mem_addEntry h with h | rfl
      · exact Or.inl h
      · exact Or.inr List.mem_cons_self
    · exact Or.inr (List.mem_cons_of_mem _ h)

theorem hasSlot_mono {entries entries' : List Entry} (h : entries ⊆ entries') {target : ObjectId}
    {signer : Signer} (hs : hasSlot entries target signer = true) :
    hasSlot entries' target signer = true := by
  obtain ⟨e, he, hk⟩ := hasSlot_iff.mp hs
  exact hasSlot_iff.mpr ⟨e, h he, hk⟩

theorem hasSlot_appendEntries {entries new : List Entry} {e : Entry} (h : e ∈ new) :
    hasSlot (appendEntries entries new) e.target e.signer = true := by
  induction new generalizing entries with
  | nil => cases h
  | cons x new ih =>
    rcases List.mem_cons.mp h with rfl | h
    · exact hasSlot_mono (appendEntries_subset _ new) (hasSlot_addEntry entries e)
    · exact ih h

theorem mem_of_by {entries : List Entry} {target sid : ObjectId} {signer : Signer}
    (h : «by» entries target signer = some sid) : ⟨target, sid, signer⟩ ∈ entries := by
  obtain ⟨e, he, rfl⟩ := Option.map_eq_some_iff.mp h
  obtain ⟨hmem, hk⟩ := List.mem_filter.mp (List.mem_of_getLast? he)
  obtain ⟨rfl, rfl⟩ := of_decide_eq_true hk
  exact hmem

theorem by_isSome {entries : List Entry} {target : ObjectId} {signer : Signer}
    (h : hasSlot entries target signer = true) : ∃ sid, «by» entries target signer = some sid := by
  obtain ⟨e, he, hk⟩ := hasSlot_iff.mp h
  have hne : entries.filter (fun e => e.target = target ∧ e.signer = signer) ≠ [] :=
    List.ne_nil_of_mem (List.mem_filter.mpr ⟨he, decide_eq_true hk⟩)
  exact ⟨_, by rw [«by», List.getLast?_eq_some_getLast hne]; rfl⟩

end SrcControl.Signatures
