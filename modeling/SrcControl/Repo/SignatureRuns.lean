import SrcControl.Lib.Interleaving
import SrcControl.Repo.SignatureIndex

/-!
# Runs on the signature index

Ingests, ref updates, garbage collection, rebuilds and the import of an old index take turns.
Every writer of the file holds the index lock while it works; storing an object and moving a
ref take no lock.
-/

namespace SrcControl.SignatureIndex

open Interleaving LineText Signatures

/-! ## Rebuilding -/

/-- What a rebuild has seen: `todo` is what is left of the current pass, `waiting` the
signatures whose target had not landed. -/
structure Scan where
  seen : List ObjectId
  todo : List ObjectId
  waiting : List ObjectId
  entries : List Entry

/-- The start of a pass of `scan_new`. -/
def Scan.relist (held : List ObjectId) (sc : Scan) : Scan :=
  let new := held.filter (fun id => !sc.seen.contains id)
  ⟨sc.seen ++ new, new ++ sc.waiting, [], sc.entries⟩

/-- One round of `scan_signatures`. -/
def Scan.judge (cr : Crypto) (content : ObjectId → Object) (held : List ObjectId) (id : ObjectId)
    (sc : Scan) : Scan :=
  match content id with
  | .signature sig =>
    if !held.contains sig.snapshot then { sc with waiting := sc.waiting ++ [id] }
    else if acceptable cr content held sig then
      { sc with entries := sc.entries ++ [⟨sig.snapshot, id, sig.signer⟩] }
    else sc
  | _ => sc

def slotCmp : Entry → Entry → Ordering :=
  compareLex (compareOn (·.target)) (compareOn (·.signer))

def SameSlot (a b : Entry) : Prop := a.target = b.target ∧ a.signer = b.signer

instance (a b : Entry) : Decidable (SameSlot a b) := by unfold SameSlot; infer_instance

/-- `dedup_by_key`, after an entry that was kept. -/
def dropRepeats (last : Entry) : List Entry → List Entry
  | [] => []
  | e :: es => if SameSlot last e then dropRepeats last es else e :: dropRepeats e es

def dedupSlots : List Entry → List Entry
  | [] => []
  | e :: es => e :: dropRepeats e es

/-- The lowest signature id keeps the slot. -/
def rebuilt (entries : List Entry) : List Entry :=
  dedupSlots (entries.mergeSort
    (fun a b => (compareLex slotCmp (compareOn (·.sig)) a b).isLE))

/-! ## Importing the old index -/

/-- A line of the old index: a target and a signature object. -/
def parseLegacyLine (line : List Char) : Option (ObjectId × ObjectId) :=
  match splitWhitespace line with
  | [target, id] => do
    let target ← ObjectId.parse target
    let id ← ObjectId.parse id
    some (target, id)
  | _ => none

/-- One round of `migrate_legacy`. -/
def importLine (cr : Crypto) (content : ObjectId → Object) (held : List ObjectId)
    (entries : List Entry) (line : List Char) : List Entry :=
  match parseLegacyLine line with
  | none => entries
  | some (target, id) =>
    if held.contains id then
      match content id with
      | .signature sig =>
        if sig.snapshot = target ∧ acceptable cr content held sig then
          addEntry entries ⟨target, id, sig.signer⟩
        else entries
      | _ => entries
    else entries

/-! ## The processes -/

/-- What the holder of the index lock has done so far. -/
inductive Critical
  | importing (todo : List (List Char)) (entries : List Entry)
  | rebuilding (scan : Scan)

/-- The store, the two index files, the tips of the branches and the index lock. `ingested`
lists the accepted signatures whose append or import was finished, and `pruned` the entries
that `gc_prune` dropped. -/
structure Shared where
  held : List ObjectId
  index : Option (List Char)
  legacy : Option (List Char)
  tips : List ObjectId
  critical : Option Critical
  ingested : List Entry
  pruned : List Entry

def Shared.text (s : Shared) : List Char := s.index.getD []

def Shared.entries (s : Shared) : List Entry := readText s.text

def Shared.migrationPending (s : Shared) : Prop := s.legacy ≠ none ∧ s.index = none

def Shared.store (s : Shared) (id : ObjectId) : Shared :=
  { s with held := if id ∈ s.held then s.held else s.held ++ [id] }

/-- `append_entries` with everything written; a file is not created for nothing. -/
def Shared.append (s : Shared) (new : List Entry) : Shared :=
  { s with
    index := if appendOut s.text new = [] then s.index else some (s.text ++ appendOut s.text new)
    ingested := s.ingested ++ new }

def Shared.prune (s : Shared) (reachable : List ObjectId) : Shared :=
  let kept := s.entries.filter (fun e => reachable.contains e.target)
  if kept.length < s.entries.length then
    { s with
      index := some (writeText kept)
      pruned := s.pruned ++ s.entries.filter (fun e => !reachable.contains e.target) }
  else s

/-- The snapshots that a branch leads to. -/
inductive Reachable (content : ObjectId → Object) (tips : List ObjectId) : ObjectId → Prop
  | tip {id : ObjectId} (h : id ∈ tips) : Reachable content tips id
  | parent {id p : ObjectId} {sn : Snapshot} (h : Reachable content tips id)
      (hc : content id = .snapshot sn) (hp : p ∈ sn.parents) : Reachable content tips p

/-- A job in progress. A pack ingest stores its objects, one job each, and then verifies and
appends; `marked` is a collection that has its reachable set; `inside` holds the lock. -/
inductive Job
  | storing (id : ObjectId)
  | verifying (ids : List ObjectId) (accepted : List Entry)
  | moving (tips : List ObjectId)
  | marked (reachable : List ObjectId)
  | migrating
  | scanning (scan : Scan)
  | inside

/-- The widths of an object's ids and key. -/
def Storable (content : ObjectId → Object) (id : ObjectId) : Prop :=
  id.bytes.length = 32 ∧ ∀ sig, content id = .signature sig → sig.signer.length = 32

inductive Start (content : ObjectId → Object) (s : Shared) : Job → Prop
  | storing {id : ObjectId} (h : Storable content id) : Start content s (.storing id)
  -- The ids were just written to the store.
  | verifying {ids : List ObjectId} (h : ids ⊆ s.held) : Start content s (.verifying ids [])
  | moving {tips : List ObjectId} : Start content s (.moving tips)
  | marked {reachable : List ObjectId} (h : ∀ id, Reachable content s.tips id → id ∈ reachable) :
      Start content s (.marked reachable)
  | migrating : Start content s .migrating
  | scanning : Start content s (.scanning ⟨[], [], [], []⟩)

inductive Step (cr : Crypto) (content : ObjectId → Object) :
    Shared → Job → Shared → Job ⊕ Unit → Prop
  | store {s : Shared} {id : ObjectId} : Step cr content s (.storing id) (s.store id) (.inr ())
  | verify {s : Shared} {id : ObjectId} {ids : List ObjectId} {acc : List Entry} :
      Step cr content s (.verifying (id :: ids) acc) s
        (.inl (.verifying ids (acc ++ verifyIncoming cr content s.held [id])))
  | append {s : Shared} {acc : List Entry} (hfree : s.critical = none)
      (hmig : acc = [] ∨ ¬ s.migrationPending) :
      Step cr content s (.verifying [] acc) (s.append acc) (.inr ())
  -- The write stops at any byte: a crash, or a full disk.
  | cut {s : Shared} {acc : List Entry} {q : List Char} (hfree : s.critical = none)
      (hmig : ¬ s.migrationPending) (hout : appendOut s.text acc ≠ [])
      (hq : q <+: appendOut s.text acc) :
      Step cr content s (.verifying [] acc) { s with index := some (s.text ++ q) } (.inr ())
  | move {s : Shared} {tips : List ObjectId} :
      Step cr content s (.moving tips) { s with tips := tips } (.inr ())
  | prune {s : Shared} {reachable : List ObjectId} (hfree : s.critical = none) :
      Step cr content s (.marked reachable) (s.prune reachable) (.inr ())
  | imported {s : Shared} (h : ¬ s.migrationPending) : Step cr content s .migrating s (.inr ())
  | startImport {s : Shared} {text : List Char} (hfree : s.critical = none)
      (hindex : s.index = none) (hlegacy : s.legacy = some text) :
      Step cr content s .migrating
        { s with critical := some (.importing ((rawLines text).map lineBody) []) } (.inl .inside)
  | importLine {s : Shared} {line : List Char} {todo : List (List Char)} {entries : List Entry}
      (h : s.critical = some (.importing (line :: todo) entries)) :
      Step cr content s .inside
        { s with
          critical := some
            (.importing todo (SignatureIndex.importLine cr content s.held entries line)) }
        (.inl .inside)
  | finishImport {s : Shared} {entries : List Entry}
      (h : s.critical = some (.importing [] entries)) :
      Step cr content s .inside
        { s with
          index := some (writeText entries)
          critical := none
          ingested := s.ingested ++ entries } (.inr ())
  | relist {s : Shared} {sc : Scan} (h : sc.todo = []) :
      Step cr content s (.scanning sc) s (.inl (.scanning (sc.relist s.held)))
  | judge {s : Shared} {sc : Scan} {id : ObjectId} {todo : List ObjectId}
      (h : sc.todo = id :: todo) :
      Step cr content s (.scanning sc) s
        (.inl (.scanning (Scan.judge cr content s.held id { sc with todo := todo })))
  | lock {s : Shared} {sc : Scan} (hfree : s.critical = none) (h : sc.todo = []) :
      Step cr content s (.scanning sc)
        { s with critical := some (.rebuilding (sc.relist s.held)) } (.inl .inside)
  | judgeLocked {s : Shared} {sc : Scan} {id : ObjectId} {todo : List ObjectId}
      (hc : s.critical = some (.rebuilding sc)) (h : sc.todo = id :: todo) :
      Step cr content s .inside
        { s with
          critical := some
            (.rebuilding (Scan.judge cr content s.held id { sc with todo := todo })) }
        (.inl .inside)
  | rebuild {s : Shared} {sc : Scan} (hc : s.critical = some (.rebuilding sc)) (h : sc.todo = []) :
      Step cr content s .inside
        { s with index := some (writeText (rebuilt sc.entries)), critical := none } (.inr ())
  -- The lock goes with its holder.
  | abandon {s : Shared} : Step cr content s .inside { s with critical := none } (.inr ())

/-- The processes whose every step `ok` allows. -/
def program (cr : Crypto) (content : ObjectId → Object) (ok : Shared → Job → Prop) :
    Program Shared Job Unit where
  start := Start content
  step s j s' q := ok s j ∧ Step cr content s j s' q

/-! ## What is claimed -/

/-- An index before its first write. -/
structure Fresh (content : ObjectId → Object) (s : Shared) : Prop where
  storable : ∀ id ∈ s.held, Storable content id
  index : s.index = none
  critical : s.critical = none
  ingested : s.ingested = []
  pruned : s.pruned = []

/-- The entry names a held signature object that verifies for its held target. -/
def Proper (cr : Crypto) (content : ObjectId → Object) (held : List ObjectId) (e : Entry) : Prop :=
  e.sig ∈ held ∧ e.target ∈ held ∧ ∃ sig, content e.sig = .signature sig ∧
    sig.snapshot = e.target ∧ sig.signer = e.signer ∧ verifies cr content sig = true

/-- At most one entry for a target and a signer, each of them proper. -/
def WellKept (cr : Crypto) (content : ObjectId → Object) (s : Shared) : Prop :=
  s.entries.Pairwise (fun a b => ¬ SameSlot a b) ∧ ∀ e ∈ s.entries, Proper cr content s.held e

/-- Every ingested signature over a reachable snapshot has its signer's entry, with the object
in the store. -/
def NothingLost (content : ObjectId → Object) (s : Shared) : Prop :=
  ∀ e ∈ s.ingested, Reachable content s.tips e.target →
    ∃ x ∈ s.entries, SameSlot x e ∧ x.sig ∈ s.held

def anyMove (_ : Shared) (_ : Job) : Prop := True

/-- A prune drops no entry of a snapshot that is reachable when it runs, and a ref update makes
no snapshot reachable whose entry a prune dropped and nothing has put back. -/
def spares (content : ObjectId → Object) (s : Shared) : Job → Prop
  | .marked reachable =>
    ∀ e ∈ s.entries, e.target ∉ reachable → ¬ Reachable content s.tips e.target
  | .moving tips =>
    ∀ e ∈ s.pruned, Reachable content tips e.target → hasSlot s.entries e.target e.signer = true
  | _ => True

section

variable {cr : Crypto} {content : ObjectId → Object}

/-! ## Slots -/

theorem SameSlot.symm {a b : Entry} (h : SameSlot a b) : SameSlot b a := ⟨h.1.symm, h.2.symm⟩

theorem SameSlot.trans {a b c : Entry} (h₁ : SameSlot a b) (h₂ : SameSlot b c) : SameSlot a c :=
  ⟨h₁.1.trans h₂.1, h₁.2.trans h₂.2⟩

theorem hasSlot_iff_sameSlot {entries : List Entry} {e : Entry} :
    hasSlot entries e.target e.signer = true ↔ ∃ x ∈ entries, SameSlot x e := hasSlot_iff

theorem slotCmp_eq_iff {a b : Entry} : slotCmp a b = .eq ↔ SameSlot a b := by
  simp [slotCmp, compareLex, compareOn, Ordering.then_eq_eq, SameSlot]

instance : Std.TransCmp slotCmp := by unfold slotCmp; infer_instance

theorem dropRepeats_subset (last : Entry) (es : List Entry) : dropRepeats last es ⊆ es := by
  induction es generalizing last with
  | nil => exact List.Subset.refl _
  | cons e es ih =>
    rw [dropRepeats]
    split
    · exact List.subset_cons_of_subset e (ih last)
    · exact List.cons_subset_cons e (ih e)

theorem dedupSlots_subset (es : List Entry) : dedupSlots es ⊆ es := by
  cases es with
  | nil => exact List.Subset.refl _
  | cons e es => exact List.cons_subset_cons e (dropRepeats_subset e es)

theorem dropRepeats_slot {last e : Entry} {es : List Entry} (h : e ∈ last :: es) :
    ∃ x ∈ last :: dropRepeats last es, SameSlot x e := by
  induction es generalizing last with
  | nil =>
    obtain rfl := List.mem_singleton.mp h
    exact ⟨e, List.mem_cons_self, rfl, rfl⟩
  | cons a es ih =>
    rw [dropRepeats]
    rcases List.mem_cons.mp h with rfl | h
    · exact ⟨e, List.mem_cons_self, rfl, rfl⟩
    split
    · next hsame =>
      rcases List.mem_cons.mp h with rfl | h
      · exact ⟨last, List.mem_cons_self, hsame⟩
      · exact ih (List.mem_cons_of_mem _ h)
    · obtain ⟨x, hx, hslot⟩ := @ih a h
      exact ⟨x, List.mem_cons_of_mem _ hx, hslot⟩

theorem dedupSlots_slot {e : Entry} {es : List Entry} (h : e ∈ es) :
    ∃ x ∈ dedupSlots es, SameSlot x e := by
  cases es with
  | nil => cases h
  | cons a es => exact dropRepeats_slot h

/-- Once sorted by slot, equal slots are adjacent. -/
theorem dropRepeats_distinct {last : Entry} {es : List Entry}
    (h : (last :: es).Pairwise (fun a b => (slotCmp a b).isLE)) :
    (last :: dropRepeats last es).Pairwise (fun a b => ¬ SameSlot a b) := by
  induction es generalizing last with
  | nil => exact List.pairwise_singleton _ _
  | cons a es ih =>
    rw [dropRepeats]
    split
    · exact ih (h.sublist (List.Sublist.cons_cons last (List.sublist_cons_self a es)))
    · next hne =>
      obtain ⟨hlast, htail⟩ := List.pairwise_cons.mp h
      refine List.pairwise_cons.mpr ⟨fun x hx hsame => ?_, ih htail⟩
      -- the kept entries lie from `a` on, and `a` lies strictly after `last`
      have hax : (slotCmp a x).isLE := by
        rcases List.mem_cons.mp hx with rfl | hx
        · rw [slotCmp_eq_iff.mpr ⟨rfl, rfl⟩]
          rfl
        · exact (List.pairwise_cons.mp htail).1 x (dropRepeats_subset a es hx)
      have hxa : slotCmp a x = slotCmp a last := by
        rw [Std.TransCmp.congr_right (slotCmp_eq_iff.mpr hsame)]
      have hla := hlast a List.mem_cons_self
      rw [hxa, @Std.OrientedCmp.eq_swap _ slotCmp _ a last] at hax
      have heq : slotCmp last a = .eq := by
        cases hcmp : slotCmp last a <;> simp_all
      exact hne (slotCmp_eq_iff.mp heq)

theorem dedupSlots_distinct {es : List Entry} (h : es.Pairwise (fun a b => (slotCmp a b).isLE)) :
    (dedupSlots es).Pairwise (fun a b => ¬ SameSlot a b) := by
  cases es with
  | nil => exact List.Pairwise.nil
  | cons e es => exact dropRepeats_distinct h

theorem rebuilt_subset (entries : List Entry) : rebuilt entries ⊆ entries := fun _ he =>
  List.mem_mergeSort.mp (dedupSlots_subset _ he)

theorem rebuilt_slot {entries : List Entry} {e : Entry} (h : e ∈ entries) :
    ∃ x ∈ rebuilt entries, SameSlot x e := dedupSlots_slot (List.mem_mergeSort.mpr h)

theorem rebuilt_distinct (entries : List Entry) :
    (rebuilt entries).Pairwise (fun a b => ¬ SameSlot a b) := by
  refine dedupSlots_distinct ?_
  have hsorted := @List.pairwise_mergeSort Entry
    (fun a b => (compareLex slotCmp (compareOn (·.sig)) a b).isLE)
    (fun _ _ _ h₁ h₂ => Std.TransCmp.isLE_trans h₁ h₂) (fun a b => ?_) entries
  · refine hsorted.imp fun {a b} h => ?_
    unfold compareLex at h
    cases hcmp : slotCmp a b <;> simp_all
  · have hs := @Std.OrientedCmp.eq_swap _ (compareLex slotCmp (compareOn Entry.sig)) _ b a
    cases hc : compareLex slotCmp (compareOn Entry.sig) a b <;> simp_all

/-! ## Entries -/

theorem Proper.mono {held held' : List ObjectId} {e : Entry} (h : Proper cr content held e)
    (hsub : held ⊆ held') : Proper cr content held' e := ⟨hsub h.1, hsub h.2.1, h.2.2⟩

theorem Proper.sized {held : List ObjectId} (hst : ∀ id ∈ held, Storable content id) {e : Entry}
    (h : Proper cr content held e) : Entry.Sized e := by
  obtain ⟨hsig, htarget, sig, hc, -, hsigner, -⟩ := h
  exact ⟨(hst _ htarget).1, (hst _ hsig).1, hsigner ▸ (hst _ hsig).2 sig hc⟩

theorem proper_of_acceptable {held : List ObjectId} {id : ObjectId} {sig : SignatureObj}
    (hid : id ∈ held) (hc : content id = .signature sig)
    (ha : acceptable cr content held sig = true) :
    Proper cr content held ⟨sig.snapshot, id, sig.signer⟩ := by
  obtain ⟨htarget, hver⟩ := acceptable_iff.mp ha
  exact ⟨hid, htarget, sig, hc, rfl, rfl, hver⟩

theorem proper_of_verifyIncoming {held ids : List ObjectId} (hids : ids ⊆ held) {e : Entry}
    (h : e ∈ verifyIncoming cr content held ids) : Proper cr content held e := by
  obtain ⟨hid, sig, hc, ht, hs, ha⟩ := mem_verifyIncoming.mp h
  obtain ⟨htarget, hver⟩ := acceptable_iff.mp ha
  exact ⟨hids hid, ht ▸ htarget, sig, hc, ht, hs, hver⟩

theorem distinct_addEntry {entries : List Entry}
    (h : entries.Pairwise (fun a b => ¬ SameSlot a b)) (e : Entry) :
    (addEntry entries e).Pairwise (fun a b => ¬ SameSlot a b) := by
  unfold addEntry
  split
  · exact h
  · next hfree =>
    refine List.pairwise_append.mpr ⟨h, List.pairwise_singleton _ _, fun a ha b hb hsame => ?_⟩
    obtain rfl := List.mem_singleton.mp hb
    exact hfree (hasSlot_iff_sameSlot.mpr ⟨a, ha, hsame⟩)

theorem distinct_appendEntries {entries : List Entry}
    (h : entries.Pairwise (fun a b => ¬ SameSlot a b)) (new : List Entry) :
    (appendEntries entries new).Pairwise (fun a b => ¬ SameSlot a b) := by
  induction new generalizing entries with
  | nil => exact h
  | cons e new ih => exact ih (distinct_addEntry h e)

theorem append_entries {s : Shared} {new : List Entry} (h : ∀ e ∈ new, Entry.Sized e) :
    (s.append new).entries = appendEntries s.entries new := by
  have htext : (s.append new).text = s.text ++ appendOut s.text new := by
    by_cases hnil : appendOut s.text new = []
    · simp only [Shared.append, if_pos hnil]
      rw [hnil, List.append_nil]
      rfl
    · simp only [Shared.append, if_neg hnil]
      rfl
  rw [Shared.entries, htext, readText_appendOut h]
  rfl

/-- A cut append leaves a first part of what the whole one leaves. -/
theorem cut_entries {s : Shared} {new : List Entry} (h : ∀ e ∈ new, Entry.Sized e) {q : List Char}
    (hq : q <+: appendOut s.text new) :
    s.entries <+: readText (s.text ++ q) ∧
      readText (s.text ++ q) <+: appendEntries s.entries new := by
  obtain ⟨es, hes, hread⟩ := readText_cut_append h hq
  rw [hread, appendEntries_eq]
  exact ⟨List.prefix_append _ _, (List.prefix_append_right_inj _).mpr hes⟩

theorem prune_entries {s : Shared} (h : ∀ e ∈ s.entries, Entry.Sized e)
    (reachable : List ObjectId) :
    (s.prune reachable).entries = s.entries.filter (fun e => reachable.contains e.target) := by
  unfold Shared.prune
  simp only
  split
  · exact readText_writeText fun e he => h e (List.mem_of_mem_filter he)
  · next hlen =>
    have hle := List.length_filter_le (fun e => reachable.contains e.target) s.entries
    have hall := List.length_filter_eq_length_iff.mp (Nat.le_antisymm hle (Nat.not_lt.mp hlen))
    exact (List.filter_eq_self.mpr hall).symm

theorem mem_prune_pruned {s : Shared} {reachable : List ObjectId} {e : Entry} :
    e ∈ (s.prune reachable).pruned ↔
      e ∈ s.pruned ∨ e ∈ s.entries ∧ e.target ∉ reachable := by
  unfold Shared.prune
  simp only
  split
  · simp
  · next hlen =>
    have hle := List.length_filter_le (fun e => reachable.contains e.target) s.entries
    have hall := List.length_filter_eq_length_iff.mp (Nat.le_antisymm hle (Nat.not_lt.mp hlen))
    constructor
    · exact Or.inl
    · rintro (h | ⟨h, hno⟩)
      · exact h
      · exact absurd (by simpa using hall e h) hno

theorem prune_frame (s : Shared) (reachable : List ObjectId) :
    (s.prune reachable).held = s.held ∧ (s.prune reachable).tips = s.tips ∧
      (s.prune reachable).ingested = s.ingested ∧ (s.prune reachable).critical = s.critical := by
  unfold Shared.prune
  simp only
  split <;> exact ⟨rfl, rfl, rfl, rfl⟩

theorem importLine_ok {held : List ObjectId} {entries : List Entry}
    (hp : ∀ e ∈ entries, Proper cr content held e)
    (hd : entries.Pairwise (fun a b => ¬ SameSlot a b)) (line : List Char) :
    (∀ e ∈ importLine cr content held entries line, Proper cr content held e) ∧
      (importLine cr content held entries line).Pairwise (fun a b => ¬ SameSlot a b) := by
  unfold importLine
  split
  · exact ⟨hp, hd⟩
  split
  · next target id _ hid =>
    split
    · next sig hc =>
      split
      · next hok =>
        obtain ⟨rfl, ha⟩ := hok
        refine ⟨fun e he => ?_, distinct_addEntry hd _⟩
        rcases mem_addEntry he with he | rfl
        · exact hp e he
        · exact proper_of_acceptable (by simpa using hid) hc ha
      · exact ⟨hp, hd⟩
    · exact ⟨hp, hd⟩
  · exact ⟨hp, hd⟩

/-! ## The scan -/

/-- Every verifying signature seen is still to be judged, is waiting, or has its entry. -/
structure ScanOk (cr : Crypto) (content : ObjectId → Object) (held : List ObjectId) (sc : Scan) :
    Prop where
  seen : sc.seen ⊆ held
  todo : sc.todo ⊆ sc.seen
  waiting : sc.waiting ⊆ sc.seen
  entries : ∀ e ∈ sc.entries, Proper cr content held e
  covered : ∀ id ∈ sc.seen, ∀ sig, content id = .signature sig → verifies cr content sig = true →
    id ∈ sc.todo ∨ id ∈ sc.waiting ∨ ⟨sig.snapshot, id, sig.signer⟩ ∈ sc.entries

theorem ScanOk.empty (held : List ObjectId) : ScanOk cr content held ⟨[], [], [], []⟩ := by
  refine ⟨?_, ?_, ?_, ?_, ?_⟩ <;> simp

theorem ScanOk.mono {held held' : List ObjectId} {sc : Scan} (h : ScanOk cr content held sc)
    (hsub : held ⊆ held') : ScanOk cr content held' sc :=
  { h with
    seen := List.Subset.trans h.seen hsub
    entries := fun e he => (h.entries e he).mono hsub }

theorem relist_ok {held : List ObjectId} {sc : Scan} (h : ScanOk cr content held sc)
    (htodo : sc.todo = []) : ScanOk cr content held (sc.relist held) where
  seen := List.append_subset.mpr ⟨h.seen, List.filter_subset_self _⟩
  todo := List.append_subset.mpr ⟨List.subset_append_right _ _,
    List.Subset.trans h.waiting (List.subset_append_left _ _)⟩
  waiting := List.nil_subset _
  entries := h.entries
  covered id hid sig hc hver := by
    rcases List.mem_append.mp hid with hid | hid
    · rcases h.covered id hid sig hc hver with hin | hin | hin
      · rw [htodo] at hin
        cases hin
      · exact Or.inl (List.mem_append_right _ hin)
      · exact Or.inr (Or.inr hin)
    · exact Or.inl (List.mem_append_left _ hid)

/-- A relisted scan has every entry's signature before it, or the entry. -/
theorem relist_covers {held : List ObjectId} {sc : Scan} (h : ScanOk cr content held sc)
    (htodo : sc.todo = []) {e : Entry} (he : Proper cr content held e) :
    e.sig ∈ (sc.relist held).todo ∨ e ∈ (sc.relist held).entries := by
  obtain ⟨hsig, -, sig, hc, ht, hs, hver⟩ := he
  have hseen : e.sig ∈ (sc.relist held).seen := by
    by_cases hin : e.sig ∈ sc.seen
    · exact List.mem_append_left _ hin
    · exact List.mem_append_right _ (List.mem_filter.mpr ⟨hsig, by simpa using hin⟩)
  rcases (relist_ok h htodo).covered _ hseen sig hc hver with hin | hin | hin
  · exact Or.inl hin
  · cases hin
  · rw [ht, hs] at hin
    exact Or.inr hin

theorem judge_frame (held : List ObjectId) (id : ObjectId) (sc : Scan) :
    (Scan.judge cr content held id sc).seen = sc.seen ∧
      (Scan.judge cr content held id sc).todo = sc.todo ∧
      sc.waiting ⊆ (Scan.judge cr content held id sc).waiting ∧
      sc.entries ⊆ (Scan.judge cr content held id sc).entries := by
  unfold Scan.judge
  split
  · split
    · exact ⟨rfl, rfl, List.subset_append_left _ _, List.Subset.refl _⟩
    split
    · exact ⟨rfl, rfl, List.Subset.refl _, List.subset_append_left _ _⟩
    · exact ⟨rfl, rfl, List.Subset.refl _, List.Subset.refl _⟩
  · exact ⟨rfl, rfl, List.Subset.refl _, List.Subset.refl _⟩

theorem judge_ok {held : List ObjectId} {sc : Scan} {id : ObjectId} {todo : List ObjectId}
    (h : ScanOk cr content held sc) (htodo : sc.todo = id :: todo) :
    ScanOk cr content held (Scan.judge cr content held id { sc with todo := todo }) := by
  have hid : id ∈ sc.seen := h.todo (htodo ▸ List.mem_cons_self)
  have hrest : todo ⊆ sc.seen := fun x hx => h.todo (htodo ▸ List.mem_cons_of_mem _ hx)
  obtain ⟨hseen, htodo', hwaiting, hentries⟩ :=
    @judge_frame cr content held id { sc with todo := todo }
  refine ⟨by rw [hseen]; exact h.seen, by rw [hseen, htodo']; exact hrest, ?_, ?_, ?_⟩
  · rw [hseen]
    unfold Scan.judge
    split
    · split
      · exact List.append_subset.mpr ⟨h.waiting, by simpa using hid⟩
      split
      · exact h.waiting
      · exact h.waiting
    · exact h.waiting
  · unfold Scan.judge
    split
    · next sig hc =>
      split
      · exact h.entries
      split
      · next ha =>
        intro e he
        rcases List.mem_append.mp he with he | he
        · exact h.entries e he
        · obtain rfl := List.mem_singleton.mp he
          exact proper_of_acceptable (h.seen hid) hc ha
      · exact h.entries
    · exact h.entries
  · intro x hx sig hc hver
    rw [hseen] at hx
    rw [htodo']
    rcases h.covered x hx sig hc hver with hin | hin | hin
    · rw [htodo] at hin
      rcases List.mem_cons.mp hin with rfl | hin
      · refine Or.inr ?_
        simp only [Scan.judge, hc]
        split
        · exact Or.inl (by simp)
        · next hheld =>
          have ha : acceptable cr content held sig = true :=
            acceptable_iff.mpr ⟨by simpa using hheld, hver⟩
          rw [if_pos ha]
          exact Or.inr (by simp)
      · exact Or.inl hin
    · exact Or.inr (Or.inl (hwaiting hin))
    · exact Or.inr (Or.inr (hentries hin))

/-- Judging an entry's signature while its target is held gives the entry. -/
theorem judge_covers {held : List ObjectId} {sc : Scan} {id : ObjectId} {todo : List ObjectId}
    (htodo : sc.todo = id :: todo) {e : Entry} (he : Proper cr content held e)
    (h : e.sig ∈ sc.todo ∨ e ∈ sc.entries) :
    e.sig ∈ (Scan.judge cr content held id { sc with todo := todo }).todo ∨
      e ∈ (Scan.judge cr content held id { sc with todo := todo }).entries := by
  obtain ⟨-, htodo', -, hentries⟩ := @judge_frame cr content held id { sc with todo := todo }
  rw [htodo']
  rcases h with hin | hin
  · rw [htodo] at hin
    rcases List.mem_cons.mp hin with rfl | hin
    · obtain ⟨-, htarget, sig, hc, ht, hs, hver⟩ := he
      have ha : acceptable cr content held sig = true :=
        acceptable_iff.mpr ⟨ht ▸ htarget, hver⟩
      have hheld : sig.snapshot ∈ held := ht ▸ htarget
      have hjudge : Scan.judge cr content held e.sig { sc with todo := todo } =
          { sc with
            todo := todo
            entries := sc.entries ++ [⟨sig.snapshot, e.sig, sig.signer⟩] } := by
        simp [Scan.judge, hc, hheld, ha]
      rw [hjudge, ht, hs]
      exact Or.inr (List.mem_append_right _ List.mem_cons_self)
    · exact Or.inl hin
  · exact Or.inr (hentries hin)

/-! ## The invariant -/

/-- What the holder of the lock has done so far is right, and misses nothing of the index. -/
def CriticalOk (cr : Crypto) (content : ObjectId → Object) (s : Shared) : Option Critical → Prop
  | none => True
  | some (.importing _ entries) => s.entries = [] ∧
      (∀ e ∈ entries, Proper cr content s.held e) ∧ entries.Pairwise (fun a b => ¬ SameSlot a b)
  | some (.rebuilding sc) => ScanOk cr content s.held sc ∧
      ∀ e ∈ s.entries, e.sig ∈ sc.todo ∨ e ∈ sc.entries

/-- Only a prune takes a slot away. -/
structure Inv (cr : Crypto) (content : ObjectId → Object) (s : Shared) : Prop where
  storable : ∀ id ∈ s.held, Storable content id
  kept : WellKept cr content s
  remembered : ∀ e ∈ s.ingested, hasSlot s.entries e.target e.signer = true ∨
    ∃ p ∈ s.pruned, SameSlot p e
  critical : CriticalOk cr content s s.critical

/-- What a job has done so far. -/
def Claim (cr : Crypto) (content : ObjectId → Object) (s : Shared) : Job ⊕ Unit → Prop
  | .inl (.storing id) => Storable content id
  | .inl (.verifying ids acc) => ids ⊆ s.held ∧ ∀ e ∈ acc, Proper cr content s.held e
  | .inl (.scanning sc) => ScanOk cr content s.held sc
  | _ => True

/-- Every pruned entry of a snapshot that is reachable has been put back. -/
def PutBack (content : ObjectId → Object) (s : Shared) : Prop :=
  ∀ p ∈ s.pruned, Reachable content s.tips p.target →
    hasSlot s.entries p.target p.signer = true

theorem Claim.mono {s s' : Shared} (h : s.held ⊆ s'.held) {q : Job ⊕ Unit}
    (hq : Claim cr content s q) : Claim cr content s' q := by
  rcases q with (_ | ⟨ids, acc⟩ | _ | _ | _ | sc | _) | _
  case inl.verifying =>
    exact ⟨List.Subset.trans hq.1 h, fun e he => (hq.2 e he).mono h⟩
  case inl.scanning => exact ScanOk.mono hq h
  case inl.storing => exact hq
  all_goals trivial

theorem claim_start {s : Shared} {j : Job} (h : Start content s j) : Claim cr content s (.inl j) := by
  cases h with
  | storing h => exact h
  | verifying h => exact ⟨h, by simp⟩
  | moving => trivial
  | marked _ => trivial
  | migrating => trivial
  | scanning => exact ScanOk.empty s.held

theorem Inv.sized {s : Shared} (h : Inv cr content s) {e : Entry} (he : e ∈ s.entries) :
    Entry.Sized e := (h.kept.2 e he).sized h.storable

theorem hasSlot_sameSlot {entries : List Entry} {a b : Entry} (h : SameSlot a b)
    (ha : hasSlot entries a.target a.signer = true) :
    hasSlot entries b.target b.signer = true := by
  rwa [h.1, h.2] at ha

/-- A step by which no slot is lost and every entry stays proper. -/
theorem Inv.advance {s s' : Shared} (h : Inv cr content s) (hheld : s'.held = s.held)
    (hpruned : s'.pruned = s.pruned) (hkept : WellKept cr content s')
    (hslots : ∀ e ∈ s.entries, hasSlot s'.entries e.target e.signer = true)
    (hnew : ∀ e ∈ s'.ingested, e ∈ s.ingested ∨ hasSlot s'.entries e.target e.signer = true)
    (hcritical : CriticalOk cr content s' s'.critical) : Inv cr content s' where
  storable := hheld ▸ h.storable
  kept := hkept
  remembered e he := by
    rcases hnew e he with he | he
    · rw [hpruned]
      refine (h.remembered e he).imp_left fun hslot => ?_
      obtain ⟨x, hx, hsame⟩ := hasSlot_iff_sameSlot.mp hslot
      exact hasSlot_sameSlot hsame (hslots x hx)
    · exact Or.inl he
  critical := hcritical

/-- A step that leaves the index alone. -/
theorem Inv.setCritical {s : Shared} (h : Inv cr content s) {c : Option Critical}
    (hc : CriticalOk cr content s c) : Inv cr content { s with critical := c } where
  storable := h.storable
  kept := h.kept
  remembered := h.remembered
  critical := by
    rcases c with _ | _ | _
    · trivial
    · exact hc
    · exact hc

theorem store_subset (s : Shared) (id : ObjectId) : s.held ⊆ (s.store id).held := by
  unfold Shared.store
  simp only
  split
  · exact List.Subset.refl _
  · exact List.subset_append_left _ _

theorem inv_store {s : Shared} (h : Inv cr content s) {id : ObjectId} (hid : Storable content id) :
    Inv cr content (s.store id) where
  storable x hx := by
    have hx' : x ∈ s.held ∨ x = id := by
      simp only [Shared.store] at hx
      split at hx
      · exact Or.inl hx
      · simpa using hx
    rcases hx' with hx | rfl
    · exact h.storable x hx
    · exact hid
  kept := ⟨h.kept.1, fun e he => (h.kept.2 e he).mono (store_subset s id)⟩
  remembered := h.remembered
  critical := by
    have hc := h.critical
    have hsame : (s.store id).critical = s.critical := rfl
    rw [hsame]
    rcases hcr : s.critical with _ | ⟨_, entries⟩ | sc
    · trivial
    · rw [hcr] at hc
      exact ⟨hc.1, fun e he => (hc.2.1 e he).mono (store_subset s id), hc.2.2⟩
    · rw [hcr] at hc
      exact ⟨hc.1.mono (store_subset s id), hc.2⟩

theorem inv_append {s : Shared} (h : Inv cr content s) (hfree : s.critical = none)
    {acc : List Entry} (hacc : ∀ e ∈ acc, Proper cr content s.held e) :
    Inv cr content (s.append acc) := by
  have hentries := @append_entries s acc fun e he => (hacc e he).sized h.storable
  have hcritical : CriticalOk cr content (s.append acc) (s.append acc).critical := by
    rw [show (s.append acc).critical = none from hfree]
    trivial
  refine h.advance rfl rfl ⟨?_, ?_⟩ ?_ ?_ hcritical
  · rw [hentries]
    exact distinct_appendEntries h.kept.1 acc
  · intro e he
    rw [hentries] at he
    exact (mem_appendEntries he).elim (h.kept.2 e) (hacc e)
  · intro e he
    rw [hentries]
    exact hasSlot_iff_sameSlot.mpr ⟨e, appendEntries_subset _ _ he, rfl, rfl⟩
  · intro e he
    rw [hentries]
    exact (List.mem_append.mp he).imp_right hasSlot_appendEntries

theorem inv_cut {s : Shared} (h : Inv cr content s) (hfree : s.critical = none) {acc : List Entry}
    (hacc : ∀ e ∈ acc, Proper cr content s.held e) {q : List Char}
    (hq : q <+: appendOut s.text acc) :
    Inv cr content { s with index := some (s.text ++ q) } := by
  obtain ⟨hlo, hhi⟩ := cut_entries (fun e he => (hacc e he).sized h.storable) hq
  refine h.advance rfl rfl ⟨?_, ?_⟩ ?_ (fun e he => Or.inl he) (by
    simp only [hfree]
    trivial)
  · exact (distinct_appendEntries h.kept.1 acc).sublist hhi.sublist
  · intro e he
    exact (mem_appendEntries (hhi.subset he)).elim (h.kept.2 e) (hacc e)
  · intro e he
    exact hasSlot_iff_sameSlot.mpr ⟨e, hlo.subset he, rfl, rfl⟩

theorem inv_prune {s : Shared} (h : Inv cr content s) (hfree : s.critical = none)
    (reachable : List ObjectId) : Inv cr content (s.prune reachable) := by
  have hentries := prune_entries (fun e he => h.sized he) reachable
  obtain ⟨hheld, -, hingested, hcritical⟩ := prune_frame s reachable
  refine ⟨hheld ▸ h.storable, ⟨?_, ?_⟩, ?_, ?_⟩
  · rw [hentries]
    exact h.kept.1.filter _
  · intro e he
    rw [hentries] at he
    rw [hheld]
    exact h.kept.2 e (List.mem_of_mem_filter he)
  · intro e he
    rw [hingested] at he
    rcases h.remembered e he with hslot | ⟨p, hp, hsame⟩
    · obtain ⟨x, hx, hsame⟩ := hasSlot_iff_sameSlot.mp hslot
      by_cases hr : x.target ∈ reachable
      · refine Or.inl (hasSlot_iff_sameSlot.mpr ⟨x, ?_, hsame⟩)
        rw [hentries]
        exact List.mem_filter.mpr ⟨hx, by simpa using hr⟩
      · exact Or.inr ⟨x, mem_prune_pruned.mpr (Or.inr ⟨hx, hr⟩), hsame⟩
    · exact Or.inr ⟨p, mem_prune_pruned.mpr (Or.inl hp), hsame⟩
  · rw [hcritical, hfree]
    trivial

theorem inv_finishImport {s : Shared} (h : Inv cr content s) {entries : List Entry}
    (hc : s.critical = some (.importing [] entries)) :
    Inv cr content { s with
      index := some (writeText entries)
      critical := none
      ingested := s.ingested ++ entries } := by
  have hcr := h.critical
  rw [hc] at hcr
  obtain ⟨hempty, hproper, hdistinct⟩ := hcr
  have hread : readText (writeText entries) = entries :=
    readText_writeText fun e he => (hproper e he).sized h.storable
  have hdistinct' : (readText (writeText entries)).Pairwise (fun a b => ¬ SameSlot a b) := by
    rw [hread]
    exact hdistinct
  refine h.advance rfl rfl ⟨hdistinct', fun e he => hproper e (hread ▸ he)⟩ ?_ ?_ trivial
  · intro e he
    rw [hempty] at he
    cases he
  · intro e he
    refine (List.mem_append.mp he).imp_right fun he => ?_
    have he' : e ∈ readText (writeText entries) := by rwa [hread]
    exact hasSlot_iff_sameSlot.mpr ⟨e, he', rfl, rfl⟩

theorem inv_rebuild {s : Shared} (h : Inv cr content s) {sc : Scan}
    (hc : s.critical = some (.rebuilding sc)) (htodo : sc.todo = []) :
    (∀ e ∈ s.entries, hasSlot (readText (writeText (rebuilt sc.entries))) e.target e.signer = true) ∧
    Inv cr content { s with index := some (writeText (rebuilt sc.entries)), critical := none } := by
  have hcr := h.critical
  rw [hc] at hcr
  obtain ⟨hscan, hcovers⟩ := hcr
  have hproper : ∀ e ∈ rebuilt sc.entries, Proper cr content s.held e :=
    fun e he => hscan.entries e (rebuilt_subset _ he)
  have hread : readText (writeText (rebuilt sc.entries)) = rebuilt sc.entries :=
    readText_writeText fun e he => (hproper e he).sized h.storable
  have hslots : ∀ e ∈ s.entries,
      hasSlot (readText (writeText (rebuilt sc.entries))) e.target e.signer = true := by
    intro e he
    rcases hcovers e he with hin | hin
    · rw [htodo] at hin
      cases hin
    · rw [hread]
      exact hasSlot_iff_sameSlot.mpr (rebuilt_slot hin)
  have hdistinct : (readText (writeText (rebuilt sc.entries))).Pairwise
      (fun a b => ¬ SameSlot a b) := by
    rw [hread]
    exact rebuilt_distinct sc.entries
  exact ⟨hslots, h.advance rfl rfl ⟨hdistinct, fun e he => hproper e (hread ▸ he)⟩ hslots
    (fun e he => Or.inl he) trivial⟩

/-- Every step keeps the invariant, and what its job claims. -/
theorem inv_step {s s' : Shared} {j : Job} {q : Job ⊕ Unit} (h : Inv cr content s)
    (hj : Claim cr content s (.inl j)) (hs : Step cr content s j s' q) :
    Inv cr content s' ∧ s.held ⊆ s'.held ∧ Claim cr content s' q := by
  have hsame : s.held ⊆ s.held := List.Subset.refl _
  cases hs with
  | store => exact ⟨inv_store h hj, store_subset _ _, trivial⟩
  | @verify id ids acc =>
    obtain ⟨hids, hacc⟩ := hj
    refine ⟨h, hsame, fun x hx => hids (List.mem_cons_of_mem _ hx), fun e he => ?_⟩
    rcases List.mem_append.mp he with he | he
    · exact hacc e he
    · refine proper_of_verifyIncoming (fun x hx => ?_) he
      exact hids (List.mem_singleton.mp hx ▸ List.mem_cons_self)
  | append hfree _ => exact ⟨inv_append h hfree hj.2, hsame, trivial⟩
  | cut hfree _ _ hq => exact ⟨inv_cut h hfree hj.2 hq, hsame, trivial⟩
  | move => exact ⟨⟨h.storable, h.kept, h.remembered, h.critical⟩, hsame, trivial⟩
  | prune hfree =>
    exact ⟨inv_prune h hfree _, by rw [(prune_frame _ _).1]; exact hsame, trivial⟩
  | imported _ => exact ⟨h, hsame, trivial⟩
  | startImport hfree hindex hlegacy =>
    have hempty : s.entries = [] := by
      rw [Shared.entries, Shared.text, hindex]
      rfl
    exact ⟨h.setCritical ⟨hempty, by simp, List.Pairwise.nil⟩, hsame, trivial⟩
  | importLine hc =>
    have hcr := h.critical
    rw [hc] at hcr
    exact ⟨h.setCritical ⟨hcr.1, importLine_ok hcr.2.1 hcr.2.2 _⟩, hsame, trivial⟩
  | finishImport hc => exact ⟨inv_finishImport h hc, hsame, trivial⟩
  | relist htodo => exact ⟨h, hsame, relist_ok hj htodo⟩
  | judge htodo => exact ⟨h, hsame, judge_ok hj htodo⟩
  | lock hfree htodo =>
    exact ⟨h.setCritical ⟨relist_ok hj htodo, fun e he => relist_covers hj htodo (h.kept.2 e he)⟩,
      hsame, trivial⟩
  | judgeLocked hc htodo =>
    have hcr := h.critical
    rw [hc] at hcr
    exact ⟨h.setCritical ⟨judge_ok hcr.1 htodo, fun e he =>
      judge_covers htodo (h.kept.2 e he) (hcr.2 e he)⟩, hsame, trivial⟩
  | rebuild hc htodo => exact ⟨(inv_rebuild h hc htodo).2, hsame, trivial⟩
  | abandon => exact ⟨h.setCritical trivial, hsame, trivial⟩

/-! ## Runs -/

theorem inv_fresh {s : Shared} (h : Fresh content s) : Inv cr content s := by
  have hempty : s.entries = [] := by
    rw [Shared.entries, Shared.text, h.index]
    rfl
  refine ⟨h.storable, ⟨?_, ?_⟩, ?_, ?_⟩
  · rw [hempty]
    exact List.Pairwise.nil
  · simp [hempty]
  · simp [h.ingested]
  · rw [h.critical]
    trivial

/-- Steps that lose no slot, and leave the tips and what was pruned alone. -/
theorem PutBack.keep {s s' : Shared} (h : PutBack content s) (htips : s'.tips = s.tips)
    (hpruned : s'.pruned = s.pruned)
    (hslots : ∀ e ∈ s.entries, hasSlot s'.entries e.target e.signer = true) :
    PutBack content s' := by
  intro p hp hr
  rw [hpruned] at hp
  rw [htips] at hr
  obtain ⟨x, hx, hsame⟩ := hasSlot_iff_sameSlot.mp (h p hp hr)
  exact hasSlot_sameSlot hsame (hslots x hx)

/-- Under `spares`, what a prune dropped and is reachable has been put back. -/
theorem putBack_step {s s' : Shared} {j : Job} {q : Job ⊕ Unit} (h : Inv cr content s)
    (hb : PutBack content s) (hj : Claim cr content s (.inl j)) (hok : spares content s j)
    (hs : Step cr content s j s' q) : PutBack content s' := by
  have hself : ∀ e ∈ s.entries, hasSlot s.entries e.target e.signer = true :=
    fun e he => hasSlot_iff_sameSlot.mpr ⟨e, he, rfl, rfl⟩
  cases hs with
  | store => exact hb
  | verify => exact hb
  | append _ _ =>
    refine hb.keep rfl rfl fun e he => ?_
    rw [append_entries fun x hx => (hj.2 x hx).sized h.storable]
    exact hasSlot_iff_sameSlot.mpr ⟨e, appendEntries_subset _ _ he, rfl, rfl⟩
  | cut _ _ _ hq =>
    obtain ⟨hlo, -⟩ := cut_entries (fun x hx => (hj.2 x hx).sized h.storable) hq
    exact hb.keep rfl rfl fun e he => hasSlot_iff_sameSlot.mpr ⟨e, hlo.subset he, rfl, rfl⟩
  | move => exact hok
  | @prune reachable _ =>
    intro p hp hr
    rw [(prune_frame s reachable).2.1] at hr
    have hslot : hasSlot s.entries p.target p.signer = true := by
      rcases mem_prune_pruned.mp hp with hp | ⟨hp, -⟩
      · exact hb p hp hr
      · exact hself p hp
    obtain ⟨x, hx, hsame⟩ := hasSlot_iff_sameSlot.mp hslot
    refine hasSlot_iff_sameSlot.mpr ⟨x, ?_, hsame⟩
    rw [prune_entries (fun e he => h.sized he) reachable]
    refine List.mem_filter.mpr ⟨hx, ?_⟩
    -- a dropped entry would be one of a snapshot that is reachable now
    by_contra hno
    exact hok x hx (by simpa using hno) (hsame.1 ▸ hr)
  | imported _ => exact hb
  | startImport _ _ _ => exact hb
  | importLine _ => exact hb
  | @finishImport entries hc =>
    have hcr := h.critical
    rw [hc] at hcr
    refine hb.keep rfl rfl fun e he => ?_
    rw [hcr.1] at he
    cases he
  | relist _ => exact hb
  | judge _ => exact hb
  | lock _ _ => exact hb
  | judgeLocked _ _ => exact hb
  | rebuild hc htodo => exact hb.keep rfl rfl (inv_rebuild h hc htodo).1
  | abandon => exact hb

/-- The outline of every run. -/
def outline (cr : Crypto) (content : ObjectId → Object) (ok : Shared → Job → Prop) :
    Outline (program cr content ok) where
  inv := Inv cr content
  rely s s' := s.held ⊆ s'.held
  claim _ s _ q := Claim cr content s q
  stable h _ hq := hq.mono h
  start _ h _ := claim_start h
  step h hj hs := inv_step h hj hs.2

/-- The outline of the runs whose prunes and ref updates spare what is reachable. -/
def sparingOutline (cr : Crypto) (content : ObjectId → Object) :
    Outline (program cr content (spares content)) where
  inv s := Inv cr content s ∧ PutBack content s
  rely s s' := s.held ⊆ s'.held
  claim _ s _ q := Claim cr content s q
  stable h _ hq := hq.mono h
  start _ h _ := claim_start h
  step h hj hs :=
    have hstep := inv_step h.1 hj hs.2
    ⟨⟨hstep.1, putBack_step h.1 h.2 hj hs.1 hs.2⟩, hstep.2⟩

theorem nothingLost_of_putBack {s : Shared} (h : Inv cr content s) (hb : PutBack content s) :
    NothingLost content s := by
  intro e he hr
  have hslot : hasSlot s.entries e.target e.signer = true := by
    rcases h.remembered e he with hslot | ⟨p, hp, hsame⟩
    · exact hslot
    · exact hasSlot_sameSlot hsame (hb p hp (hsame.1 ▸ hr))
  obtain ⟨x, hx, hsame⟩ := hasSlot_iff_sameSlot.mp hslot
  exact ⟨x, hx, hsame, (h.kept.2 x hx).1⟩

/-- In every run the index is well kept, and in every run whose prunes and ref updates spare
what is reachable no ingested signature is lost. -/
theorem index_keeps_signatures {s : Shared} (h : Fresh content s)
    (c : Config Shared Job Unit) :
    ((program cr content anyMove).Run (.initial s) c → WellKept cr content c.shared) ∧
    ((program cr content (spares content)).Run (.initial s) c →
      WellKept cr content c.shared ∧ NothingLost content c.shared) := by
  constructor
  · intro hrun
    exact ((outline cr content anyMove).holds_run (inv_fresh h) hrun).inv.kept
  · intro hrun
    have hback : PutBack content s := by
      intro p hp
      rw [h.pruned] at hp
      cases hp
    have hinv := ((sparingOutline cr content).holds_run ⟨inv_fresh h, hback⟩ hrun).inv
    exact ⟨hinv.1.kept, nothingLost_of_putBack hinv.1 hinv.2⟩

end

/-! ### A signature indexed before its snapshot is reachable -/

def testCrypto : Crypto := ⟨fun _ _ _ => true, fun _ _ _ => true, fun id => id.bytes⟩

def testId (n : UInt8) : ObjectId := ⟨List.replicate 32 n⟩

/-- Signature 5 over snapshot 1. -/
def testContent (id : ObjectId) : Object :=
  if id = testId 5 then .signature ⟨testId 1, List.replicate 32 7, []⟩
  else .snapshot ⟨testId 0, [], "", 0, "", ∅, default⟩

def testShared : Shared := ⟨[], none, none, [], none, [], []⟩

/-- The snapshot and its signature stored, and the signature verified and appended. -/
def testPushed : Shared := ((testShared.store (testId 1)).store (testId 5)).append
  [⟨testId 1, testId 5, List.replicate 32 7⟩]

theorem entries_move (s : Shared) (tips : List ObjectId) :
    ({ s with tips := tips } : Shared).entries = s.entries := rfl

theorem fresh_testShared : Fresh testContent testShared :=
  ⟨by simp [testShared], rfl, rfl, rfl, rfl⟩

theorem storable_test (n : UInt8) : Storable testContent (testId n) := by
  refine ⟨by simp [testId], fun sig h => ?_⟩
  unfold testContent at h
  split at h
  · cases h
    simp
  · cases h

theorem path_once {ok : Shared → Job → Prop} {s s' : Shared} {j : Job} (hok : ok s j)
    (h : Step testCrypto testContent s j s' (.inr ())) :
    (program testCrypto testContent ok).Path s j s' (.inr ()) := .tail (.refl s j) ⟨hok, h⟩

/-- The push of a signed snapshot, before its ref update. -/
theorem run_pushed {ok : Shared → Job → Prop}
    (hok : ∀ s j, (∀ r, j ≠ .marked r) → (∀ t, j ≠ .moving t) → ok s j) :
    ∃ c, (program testCrypto testContent ok).Run (.initial testShared) c ∧
      c.shared = testPushed ∧ Ended 3 c := by
  have hstored : ∀ s id, ok s (.storing id) := fun s id => hok s _ (by simp) (by simp)
  have hverify : ∀ s ids acc, ok s (.verifying ids acc) := fun s _ _ => hok s _ (by simp) (by simp)
  have hnone : (program testCrypto testContent ok).Run (.initial testShared)
      (.initial testShared) := .refl
  obtain ⟨c, hrun, hs, hend⟩ := (ended_initial testShared).run hnone
    (Start.storing (storable_test 1)) (path_once (hstored _ _) .store)
  obtain ⟨c, hrun, hs', hend⟩ := hend.run hrun
    (Start.storing (storable_test 5)) (path_once (hstored _ _) .store)
  rw [hs] at hs'
  have hids : [testId 5] ⊆ c.shared.held := by
    rw [hs']
    decide
  have hacc : verifyIncoming testCrypto testContent c.shared.held [testId 5] =
      [⟨testId 1, testId 5, List.replicate 32 7⟩] := by
    rw [hs']
    decide
  have hpath : (program testCrypto testContent ok).Path c.shared (.verifying [testId 5] [])
      (c.shared.append [⟨testId 1, testId 5, List.replicate 32 7⟩]) (.inr ()) := by
    refine .tail (.tail (.refl _ _) ⟨hverify _ _ _, .verify⟩) ⟨hverify _ _ _, ?_⟩
    rw [hacc]
    refine .append (by rw [hs']; rfl) (Or.inr fun hmig => hmig.1 ?_)
    rw [hs']
    rfl
  obtain ⟨c', hrun, hs'', hend⟩ := hend.run hrun (Start.verifying hids) hpath
  exact ⟨c', hrun, by rw [hs'', hs']; rfl, hend⟩

theorem reachable_nil {content : ObjectId → Object} {id : ObjectId} :
    ¬ Reachable content [] id := by
  intro h
  induction h with
  | tip h => cases h
  | parent _ _ _ ih => exact ih

/-- The ref update comes first, and the collection after it. -/
theorem index_keeps_signatures_pushed :
    ∃ c, (program testCrypto testContent (spares testContent)).Run (.initial testShared) c ∧
      c.shared.ingested = [⟨testId 1, testId 5, List.replicate 32 7⟩] ∧
      c.shared.tips = [testId 1] ∧
      WellKept testCrypto testContent c.shared ∧ NothingLost testContent c.shared := by
  obtain ⟨c, hrun, hs, hend⟩ := @run_pushed (spares testContent) (fun s j hm ht => by
    cases j <;> first | trivial | exact absurd rfl (hm _) | exact absurd rfl (ht _))
  have hpruned : spares testContent c.shared (.moving [testId 1]) := by
    intro e he
    rw [hs] at he
    cases he
  obtain ⟨c, hrun, hs', -⟩ := hend.run hrun Start.moving (path_once hpruned .move)
  rw [hs] at hs'
  exact ⟨c, hrun, by rw [hs']; rfl, by rw [hs'],
    (index_keeps_signatures fresh_testShared c).2 hrun⟩

/-- A collection between the push and its ref update drops the signature for good. -/
theorem prune_before_ref_update :
    ∃ c, (program testCrypto testContent anyMove).Run (.initial testShared) c ∧ Ended 5 c ∧
      ¬ NothingLost testContent c.shared := by
  obtain ⟨c, hrun, hs, hend⟩ := @run_pushed anyMove (fun _ _ _ _ => trivial)
  have hmark : ∀ id, Reachable testContent c.shared.tips id → id ∈ ([] : List ObjectId) := by
    intro id h
    rw [hs] at h
    exact absurd h reachable_nil
  obtain ⟨c, hrun, hs', hend⟩ := hend.run hrun (Start.marked hmark)
    (path_once trivial (.prune (by rw [hs]; rfl)))
  obtain ⟨c, hrun, hs'', hend⟩ := hend.run hrun (@Start.moving _ _ [testId 1])
    (path_once trivial .move)
  refine ⟨c, hrun, hend, fun hkeeps => ?_⟩
  rw [hs'', hs', hs] at hkeeps
  obtain ⟨x, hx, -⟩ := hkeeps ⟨testId 1, testId 5, List.replicate 32 7⟩
    (by rw [(prune_frame _ _).2.2.1]; exact List.mem_cons_self) (.tip List.mem_cons_self)
  have hsized : ∀ e ∈ testPushed.entries, Entry.Sized e := by
    have hnew : ∀ e ∈ [(⟨testId 1, testId 5, List.replicate 32 7⟩ : Entry)], Entry.Sized e := by
      intro e he
      obtain rfl := List.mem_singleton.mp he
      exact ⟨rfl, rfl, rfl⟩
    have hnil : ((testShared.store (testId 1)).store (testId 5)).entries = [] := rfl
    intro e he
    rw [testPushed, append_entries hnew] at he
    rcases mem_appendEntries he with he | he
    · rw [hnil] at he
      cases he
    · exact hnew e he
  rw [entries_move, prune_entries hsized] at hx
  simp at hx

end SrcControl.SignatureIndex
