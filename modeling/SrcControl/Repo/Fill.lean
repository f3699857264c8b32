import SrcControl.Core.IdText
import SrcControl.Repo.IngestFile
import SrcControl.Repo.SparseView

/-!
# Filling a view

A lazy clone asks its origin for exactly the trees and blobs that a view needs, by id, one depth of
the tree a round. A batch that the origin refuses as too large is split in half; a reply has to
partition the batch exactly. The origin's answers are a parameter, one for each attempt.
-/

namespace SrcControl.Fill

open Wire (Source)
open Pack (Zstd packRecords)
open Transport (ingestPackFileImpl)

/-- What a batch is answered with: a pack, and the ids the origin did not send. -/
structure Reply where
  pack : Source
  notSent : List ObjectId

/-- Why an attempt brought no reply. -/
inductive Refusal
  | packTooLarge
  | other (e : Error)
deriving DecidableEq, Repr

inductive FillError
  | refused (r : Refusal)
  | ingest (e : IngestError)
  | repo (e : Error)
  | fuel
deriving DecidableEq, Repr

/-- The marker of a partial clone, as far as a fill reads it. -/
structure Promisor where
  origin : String
  allPaths : Bool

/-- The clone a fill runs in. `reply` answers the attempt of that number on a batch, `connect`
opens the transport, `index` is what follows the writes of an ingest. -/
structure FillEnv where
  z : Zstd
  hash : Bytes → Bytes
  max : Nat
  index : Store → List ObjectId → Except Error Unit
  reply : Nat → List ObjectId → Except Refusal Reply
  connect : Except Error Unit
  promisor : Option Promisor
  lazy : Bool
  gap : Promisor → String → Bool → Error

/-- The store, the cost so far, whether the transport is open, and what was asked and answered. -/
structure FillState where
  store : Store
  requests : Nat
  objects : Nat
  opened : Bool
  log : List (List ObjectId × Except Refusal Reply)

/-- A step of a fill: what it returns, and the state also where it fails. -/
abbrev Filled := Except FillError Unit × FillState

def MAX_GET_OBJECTS_IDS : Nat := 1024

section Fetch

variable (env : FillEnv)

def hexId (id : ObjectId) : String := String.ofList id.toHex

/-- The check of a reply: the smallest id that breaks the partition is named. -/
def checkReply (requested notSent : BTreeSet ObjectId) (found : List ObjectId) :
    Except Error Unit :=
  let found := BTreeSet.ofList found
  match found.toList.find? (fun id => !requested.contains id) with
  | some id => .error (.protocol ("remote sent unrequested object " ++ hexId id))
  | none =>
    match notSent.toList.find? (fun id => !requested.contains id) with
    | some id =>
      .error (.protocol (s!"remote listed unrequested object {hexId id} as not sent"))
    | none =>
      match found.toList.find? (fun id => notSent.contains id) with
      | some id => .error (.protocol ("remote both sent and refused object " ++ hexId id))
      | none =>
        match requested.toList.find? (fun id => !found.contains id && !notSent.contains id) with
        | some id => .error (.protocol ("remote neither sent nor refused object " ++ hexId id))
        | none => .ok ()

/-- One round trip; the ids that were refused are an error after the others are written. -/
def fetchByIdFrom (ids : List ObjectId) (s : FillState) : Except FillError Nat × FillState :=
  let requested := BTreeSet.ofList ids
  let answer := env.reply s.requests ids
  let s := { s with log := s.log ++ [(ids, answer)] }
  match answer with
  | .error e => (.error (.refused e), s)
  | .ok r =>
    let out := ingestPackFileImpl env.z env.hash env.max r.pack r.pack s.store
      (some requested.toList.length) (checkReply requested (BTreeSet.ofList r.notSent)) false none
      env.index
    let s := { s with store := out.store }
    match out.result with
    | .error e => (.error (.ingest e), s)
    | .ok ingested =>
      match r.notSent.head? with
      | some id => (.error (.repo (.core (.notFound id))), s)
      | none => (.ok ingested.length, s)

/-- A batch that is refused as too large is split in half; a batch of one is final. -/
def fetchIdsSplit (ids : List ObjectId) (s : FillState) : Filled :=
  match fetchByIdFrom env ids { s with requests := s.requests + 1 } with
  | (.ok n, s) => (.ok (), { s with objects := s.objects + n })
  | (.error (.refused .packTooLarge), s) =>
    if _h : 1 < ids.length then
      match fetchIdsSplit (ids.take (ids.length / 2)) s with
      | (.ok _, s) => fetchIdsSplit (ids.drop (ids.length / 2)) s
      | (.error e, s) => (.error e, s)
    else (.error (.refused .packTooLarge), s)
  | (.error e, s) => (.error e, s)
termination_by ids.length
decreasing_by
  · rw [List.length_take]
    omega
  · rw [List.length_drop]
    omega

/-- Batches of at most `maxIds`. -/
def fetchIdsChunked (maxIds : Nat) (ids : List ObjectId) (s : FillState) : Filled :=
  if _h : ids = [] ∨ maxIds = 0 then (.ok (), s)
  else
    match fetchIdsSplit env (ids.take maxIds) s with
    | (.ok _, s) => fetchIdsChunked maxIds (ids.drop maxIds) s
    | (.error e, s) => (.error e, s)
termination_by ids.length
decreasing_by
  rw [List.length_drop]
  have hpos := List.length_pos_of_ne_nil (not_or.mp _h).1
  omega

/-- `Filler::new`: the origin where filling is allowed. -/
def fillOrigin (offline : Bool) : Option String :=
  match env.promisor with
  | some p => if env.lazy && !offline then some p.origin else none
  | none => none

def ensureMany (origin : Option String) (ids : BTreeSet ObjectId) (path : String) (tree : Bool)
    (s : FillState) : Filled :=
  let absent := ids.toList.filter (fun id => !s.store.contains id)
  match absent.head? with
  | none => (.ok (), s)
  | some first =>
    match origin with
    | none =>
      match env.promisor with
      | some p => (.error (.repo (env.gap p path tree)), s)
      | none => (.error (.repo (.core (.notFound first))), s)
    | some _ =>
      match if s.opened then .ok () else env.connect with
      | .error e => (.error (.repo e), s)
      | .ok _ => fetchIdsChunked env MAX_GET_OBJECTS_IDS absent { s with opened := true }

end Fetch

/-! ## The walk -/

/-- What a round has collected: the ids to fetch, the trees of the next depth, and the trees read
already, above the view by their path too. -/
structure Level where
  want : BTreeSet ObjectId
  next : List (ObjectId × String)
  seen : List (ObjectId × Option String)

def childPath (path name : String) : String := if path = "" then name else path ++ "/" ++ name

/-- Under a path the view matches, a tree is told by its id alone. -/
def seenKey (sparse : Sparse) (id : ObjectId) (path : String) : ObjectId × Option String :=
  (id, if sparse.matchesPath path then none else some path)

def readEntry (sparse : Sparse) (path : String) (l : Level) (e : TreeEntry) : Level :=
  let child := childPath path e.name
  match e.kind with
  | .blob => if sparse.matchesPath child then { l with want := l.want.insert e.id } else l
  | .tree =>
    if sparse.shouldDescend child then
      let l := { l with want := l.want.insert e.id }
      let key := seenKey sparse e.id child
      if key ∈ l.seen then l
      else { l with seen := l.seen ++ [key], next := l.next ++ [(e.id, child)] }
    else l

def readLevel (store : Store) (sparse : Sparse) (frontier : List (ObjectId × String)) (l : Level) :
    Except Error Level :=
  frontier.foldlM (fun l (treeId, path) => do
    let tree ← store.getTree treeId
    pure (tree.entries.foldl (readEntry sparse path) l)) l

section View

variable (env : FillEnv)

/-- The rounds, one for each depth of the tree. -/
def fillRounds (origin : Option String) (sparse : Sparse) :
    Nat → List (ObjectId × String) → List (ObjectId × Option String) → FillState → Filled
  | 0, [], _, s => (.ok (), s)
  | 0, _ :: _, _, s => (.error .fuel, s)
  | _ + 1, [], _, s => (.ok (), s)
  | fuel + 1, first :: rest, seen, s =>
    match readLevel s.store sparse (first :: rest) ⟨∅, [], seen⟩ with
    | .error e => (.error (.repo e), s)
    | .ok l =>
      match ensureMany env origin l.want first.2 true s with
      | (.ok _, s) => fillRounds origin sparse fuel l.next l.seen s
      | (.error e, s) => (.error e, s)

def fillView (origin : Option String) (fuel : Nat) (root : ObjectId) (sparse : Sparse)
    (s : FillState) : Filled :=
  match ensureMany env origin (BTreeSet.ofList [root]) "" true s with
  | (.ok _, s) => fillRounds env origin sparse fuel [(root, "")] [] s
  | (.error e, s) => (.error e, s)

/-- `ensure_view_impl`. A full view of a clone that is not size-only is never filled. -/
def ensureView (fuel : Nat) (root : ObjectId) (sparse : Sparse) (offline : Bool) (store : Store) :
    Filled :=
  let s : FillState := ⟨store, 0, 0, false, []⟩
  if sparse.isFull && !env.promisor.any (·.allPaths) then (.ok (), s)
  else
    match fillOrigin env offline with
    | none => (.ok (), s)
    | some origin => fillView env (some origin) fuel root sparse s

end View

end SrcControl.Fill
