import SrcControl.Repo.Signatures

/-!
# Transcripts and drops

The live transcript index is read through a grow-only set of drops. A drop tombstone is
honoured when its snapshot is held, what it names fits that snapshot, and a trusted signer
has signed it; a signed tombstone that is not honoured yet is remembered. Reading an object
that is held does not fail here, and no older signature index waits to be imported.
-/

namespace SrcControl.Transcripts

open Signatures

structure DropEntry where
  snap : ObjectId
  tomb : ObjectId
  dropped : ObjectId
deriving DecidableEq

def maxPending : Nat := 1024

def maxSigLookups : Nat := 1024

/-- A store with its index files. `pendingTrust` is the fingerprint of the trusted set the
pending tombstones were judged under. -/
structure Peer (F : Type) where
  held : List ObjectId
  sigs : List Entry
  index : List (ObjectId × ObjectId)
  drops : List DropEntry
  pending : List ObjectId
  pendingTrust : Option F
  trusted : Finset Signer

section

variable {F : Type} [DecidableEq F] (cr : Crypto) (content : ObjectId → Object)
  (fp : Finset Signer → F)

def Peer.initial (trusted : Finset Signer) : Peer F := ⟨[], [], [], [], [], none, trusted⟩

def droppedIds (p : Peer F) : List ObjectId := p.drops.map (·.dropped)

/-- `read_index`: the live index minus every dropped transcript. -/
def listed (p : Peer F) : List (ObjectId × ObjectId) :=
  p.index.filter (fun e => !(droppedIds p).contains e.2)

def isSnapshot : Object → Bool
  | .snapshot _ => true
  | _ => false

/-- What the tombstone names, if held, is a real transcript on the tombstone's snapshot. -/
def fits (held : List ObjectId) (snap dropped : ObjectId) : Bool :=
  if held.contains dropped then
    match content dropped with
    | .transcript d => d.droppedId.isNone && d.snapshot = snap
    | _ => false
  else true

def signedBy (sigs : List Entry) (tomb : ObjectId) (signer : Signer) : Bool :=
  match Signatures.by sigs tomb signer with
  | none => false
  | some sid =>
    match content sid with
    | .signature sig => sig.signer = signer && cr.verifyTranscriptSig signer (cr.dropDigest tomb) sig.sig
    | _ => false

def tombstoneHonored (held : List ObjectId) (trusted : Finset Signer) (sigs : List Entry)
    (tomb : ObjectId) (t : Transcript) (dropped : ObjectId) : Bool :=
  held.contains t.snapshot && isSnapshot (content t.snapshot) &&
    fits content held t.snapshot dropped &&
    decide (∃ signer ∈ trusted, signedBy cr content sigs tomb signer = true)

def appendIndex (snap tid : ObjectId) (p : Peer F) : Peer F :=
  if (droppedIds p).contains tid then p
  else if (listed p).contains (snap, tid) then p
  else { p with index := listed p ++ [(snap, tid)] }

def appendDrop (e : DropEntry) (p : Peer F) : Peer F :=
  if p.drops.contains e then p else { p with drops := p.drops ++ [e] }

/-- The ids of `new` not in `all` yet, behind `all`. -/
def addAll (all new : List ObjectId) : List ObjectId :=
  new.foldl (fun all id => if all.contains id then all else all ++ [id]) all

def writePending (ids : List ObjectId) (p : Peer F) : Peer F :=
  if ids = [] then { p with pending := [], pendingTrust := none } else { p with pending := ids }

def newest (n : Nat) (ids : List ObjectId) : List ObjectId := ids.drop (ids.length - n)

def notePending (new : List ObjectId) (p : Peer F) : Peer F :=
  if new = [] then p
  else
    let new := newest maxPending (addAll [] new)
    let all := addAll p.pending new
    if all = p.pending then p
    else
      let p := writePending (newest maxPending all) p
      if p.pendingTrust.isNone then { p with pendingTrust := some (fp p.trusted) } else p

/-- `index_incoming` on its way through a batch. -/
structure Batch (F : Type) where
  peer : Peer F
  recorded : List ObjectId
  inert : List ObjectId
  considered : List ObjectId
  lookedUp : List ObjectId
  lookups : Nat

/-- Honour a tombstone, or remember a signed one whose snapshot is held. -/
def consider (id : ObjectId) (t : Transcript) (dropped : ObjectId) (b : Batch F) : Batch F :=
  let b := { b with considered := id :: b.considered }
  if b.recorded.contains id then b
  else if tombstoneHonored cr content b.peer.held b.peer.trusted b.peer.sigs id t dropped then
    { b with peer := appendDrop ⟨t.snapshot, id, dropped⟩ b.peer, recorded := id :: b.recorded }
  else if isSigned b.peer.sigs id && b.peer.held.contains t.snapshot then
    { b with inert := b.inert ++ [id] }
  else b

def lookUp (target : ObjectId) (b : Batch F) : Batch F :=
  let b := { b with lookedUp := target :: b.lookedUp }
  if b.peer.held.contains target then
    let b := { b with lookups := b.lookups + 1 }
    match content target with
    | .transcript t =>
      match t.droppedId with
      | some dropped => consider cr content target t dropped b
      | none => b
    | _ => b
  else b

def indexOne (b : Batch F) (id : ObjectId) : Batch F :=
  match content id with
  | .transcript t =>
    match t.droppedId with
    | some dropped => if b.considered.contains id then b else consider cr content id t dropped b
    | none => { b with peer := appendIndex t.snapshot id b.peer }
  | .signature s =>
    if b.lookups < maxSigLookups ∧ s.snapshot ∉ b.considered ∧ s.snapshot ∉ b.lookedUp then
      lookUp cr content s.snapshot b
    else b
  | _ => b

def Batch.start (p : Peer F) : Batch F := ⟨p, p.drops.map (·.tomb), [], [], [], 0⟩

def indexBatch (ids : List ObjectId) (p : Peer F) : Batch F :=
  ids.foldl (indexOne cr content) (.start p)

def indexIncoming (ids : List ObjectId) (p : Peer F) : Peer F :=
  let b := indexBatch cr content ids p
  notePending fp b.inert b.peer

/-- One pending tombstone judged again: what is kept, and the peer. -/
def rejudge (acc : List ObjectId × Peer F) (id : ObjectId) : List ObjectId × Peer F :=
  if acc.2.held.contains id then
    match content id with
    | .transcript t =>
      match t.droppedId with
      | some dropped =>
        if tombstoneHonored cr content acc.2.held acc.2.trusted acc.2.sigs id t dropped then
          (acc.1, appendDrop ⟨t.snapshot, id, dropped⟩ acc.2)
        else (acc.1 ++ [id], acc.2)
      | none => acc
    | _ => acc
  else acc

def reevaluateInner (p : Peer F) : Peer F :=
  let r := p.pending.foldl (rejudge cr content) ([], p)
  if r.1.length ≠ p.pending.length then writePending r.1 r.2 else r.2

def needsJudging (p : Peer F) : Bool :=
  p.pending ≠ [] && (p.pendingTrust ≠ some (fp p.trusted))

def reevaluateIfTrustChanged (p : Peer F) : Peer F :=
  if needsJudging fp p then
    { reevaluateInner cr content p with pendingTrust := some (fp p.trusted) }
  else p

/-- The batch is stored, held tombstones are judged under the trust in force, the batch's
signatures are indexed. -/
def prepare (ids : List ObjectId) (p : Peer F) : Peer F :=
  let p := reevaluateIfTrustChanged cr content fp { p with held := p.held ++ ids }
  { p with sigs := appendEntries p.sigs (verifyIncoming cr content p.held ids) }

/-- `ingest_pack_file` of the objects `ids`. -/
def ingest (ids : List ObjectId) (p : Peer F) : Peer F :=
  indexIncoming cr content fp ids (prepare cr content fp ids p)

/-- The trusted signers change, and the next open judges the pending tombstones again. -/
def setTrusted (trusted : Finset Signer) (p : Peer F) : Peer F :=
  reevaluateIfTrustChanged cr content fp { p with trusted := trusted }

def gcPrune (reachable : List ObjectId) (p : Peer F) : Peer F :=
  let reachable := reachable ++ p.drops.map (·.tomb) ++ p.pending
  -- Each transcript kept is rooted too, for the entries after it.
  let kept := (p.index.foldl (fun acc e =>
    if (droppedIds p).contains e.2 then acc
    else if acc.1.contains e.1 then (e.2 :: acc.1, acc.2 ++ [e]) else acc) (reachable, [])).2
  if kept.length < p.index.length then { p with index := kept } else p

/-! ### The rebuild -/

/-- What `reindex` has learned so far. -/
structure Scan (F : Type) where
  seen : List ObjectId
  waiting : List (ObjectId × ObjectId)
  bodies : List (ObjectId × ObjectId)
  tombs : List (ObjectId × Transcript × ObjectId)
  honored : List DropEntry
  fp : Option F

def Scan.initial : Scan F := ⟨[], [], [], [], [], none⟩

def scanOne (held : List ObjectId) (s : Scan F) (id : ObjectId) : Scan F :=
  match content id with
  | .transcript t =>
    if held.contains t.snapshot then
      match t.droppedId with
      | some dropped => { s with tombs := s.tombs ++ [(id, t, dropped)] }
      | none => { s with bodies := s.bodies ++ [(id, t.snapshot)] }
    else { s with waiting := s.waiting ++ [(id, t.snapshot)] }
  | _ => s

/-- The verdict on one tombstone replaces its earlier one. -/
def judgeOne (p : Peer F) (s : Scan F) (e : ObjectId × Transcript × ObjectId) : Scan F :=
  let others := s.honored.filter (fun h => h.tomb ≠ e.1)
  if tombstoneHonored cr content p.held p.trusted p.sigs e.1 e.2.1 e.2.2 then
    { s with honored := others ++ [⟨e.2.1.snapshot, e.1, e.2.2⟩] }
  else { s with honored := others }

def judge (p : Peer F) (new : List ObjectId) (s : Scan F) : Scan F :=
  if s.tombs = [] then s
  else
    let s := if s.fp = some (fp p.trusted) then s
      else { s with honored := [], fp := some (fp p.trusted) }
    let todo := s.tombs.filter (fun e =>
      !(s.honored.map (·.tomb)).contains e.1 || new.contains e.2.2)
    if p.trusted = ∅ then s else todo.foldl (judgeOne cr content p) s

/-- One pass; the flag says whether an object was listed for the first time. -/
def pass (p : Peer F) (s : Scan F) : Scan F × Bool :=
  let new := p.held.dedup.filter (fun id => !s.seen.contains id)
  let ready := s.waiting.filter (fun w => p.held.contains w.2)
  let s := { s with
    seen := s.seen ++ new
    waiting := s.waiting.filter (fun w => !p.held.contains w.2) }
  let s := (new ++ ready.map (·.1)).foldl (scanOne content p.held) s
  (judge cr content fp p new s, new ≠ [])

def catchUp (p : Peer F) : Nat → Scan F → Scan F
  | 0, s => s
  | n + 1, s =>
    let r := pass cr content fp p s
    if r.2 then catchUp p n r.1 else r.1

/-- `reindex` of a store nobody else writes: a pass, the catch-up passes, the locked pass. -/
def reindex (p : Peer F) : Peer F :=
  let s := (pass cr content fp p (catchUp cr content fp p 4 (pass cr content fp p .initial).1)).1
  let dropped := s.honored.map (·.dropped)
  { p with
    index := (s.bodies.filter (fun b => !dropped.contains b.1)).map (fun b => (b.2, b.1))
    drops := s.honored }

end

end SrcControl.Transcripts
