import SrcControl.Core.BudgetedStore
import SrcControl.Core.Codec
import SrcControl.Repo.WireStream

/-!
# A server session

One peer is served until it says `Bye`, hangs up or is refused for good. Every turn reads a
request, with the pack stream that trails a `PutPack`, and writes its response. The peer
reads everything that is written, so a response fails only when it fits no frame. What the
repository does with a request is a parameter of the session.
-/

namespace SrcControl.Wire

structure WirePolicy where
  readOnly : Bool
  maxPackSize : UInt64
  roDrainCap : UInt64
  maxConnBytes : UInt64

def U64_MAX : Nat := 2 ^ 64 - 1

/-- `saturating_add` of two `u64`s. -/
def saturatingAdd (a b : Nat) : Nat := min (a + b) U64_MAX

/-! ## The write budget -/

structure ConnBudget where
  limit : Nat
  used : Nat
deriving DecidableEq, Repr

namespace ConnBudget

def refusal (b : ConnBudget) : WireError :=
  .connectionBudgetExceeded
    (s!"server cap is {b.limit} bytes of writes per connection; raise --max-conn-bytes on the " ++
      "server or split the push across connections")

/-- Attempts count, accepted or not. -/
def spend (b : ConnBudget) (n : Nat) : ConnBudget := { b with used := saturatingAdd b.used n }

/-- `charge`: the refusal when the budget would be exceeded. -/
def charge (b : ConnBudget) (n : Nat) : Except WireError Unit :=
  if b.limit ≠ 0 ∧ (b.spend n).used > b.limit then .error (b.spend n).refusal else .ok ()

/-- The spool cap for the next pack, and whether the budget is the binding one. -/
def packCap (b : ConnBudget) (maxPackSize : Nat) : Nat × Bool :=
  if b.limit = 0 then (maxPackSize, false)
  else
    let left := max (b.limit - b.used) 1
    if maxPackSize = 0 ∨ left < maxPackSize then (left, true) else (maxPackSize, false)

end ConnBudget

structure PackTally where
  limit : Option Nat
  countBlobs : Bool
  seen : Nat

namespace PackTally

def exceeded (t : PackTally) : Bool := t.limit.any (fun l => l < t.seen)

def add (t : PackTally) (o : Object) : PackTally :=
  if t.countBlobs || o.blobSize = 0 then { t with seen := saturatingAdd t.seen o.encode.length }
  else t

/-- The records of a pack in order, up to the first that puts the tally over its limit. -/
def scan (t : PackTally) : List Object → PackTally
  | [] => t
  | o :: os => if (t.add o).exceeded then t.add o else (t.add o).scan os

end PackTally

/-! ## The repository behind the session -/

/-- What a backend does with the requests, over any repository state. `parsePack` is what
the pack reader hands out before it ends or fails. -/
structure ServeTransport (σ : Type) where
  bucket : Bool
  listRefs : σ → Except WireError (List (String × ObjectId))
  headBranch : σ → Except WireError String
  hasObject : ObjectId → σ → Except WireError Bool
  getObject : ObjectId → σ → Except WireError Bytes
  buildPack : List ObjectId → List ObjectId → List String → Option UInt64 → σ →
    Except WireError Bytes
  buildObjects : List ObjectId → Nat → σ → Except WireError (List ObjectId × Bytes)
  putObject : ObjectId → Bytes → σ → Except WireError Unit × σ
  updateRef : String → ObjectId → Option ObjectId → σ → Except WireError Unit × σ
  openSpool : Except WireError Unit
  parsePack : Bytes → List Object × Except WireError Unit
  ingest : Bytes → σ → Except WireError (List ObjectId) × σ
  isNotFound : String → Bool

/-- 2 GiB. -/
def BY_ID_REPLY_CEILING : Nat := 2048 * 1024 * 1024

def byIdReplyCap (maxPackSize : Nat) : Nat :=
  if maxPackSize = 0 then BY_ID_REPLY_CEILING else min maxPackSize BY_ID_REPLY_CEILING

def OBJECT_SIZE_HINT : String :=
  "only the receiving side's cap applies: raise SC_MAX_OBJECT_SIZE (or " ++
    "`sc serve --max-object-size` on a server) on the side that is refusing"

def checkObjectLen (len max : Nat) : Except WireError Unit :=
  if len > max then
    .error (.protocol (s!"object of {len} bytes exceeds the {max}-byte object size limit (" ++
      OBJECT_SIZE_HINT ++ ")"))
  else .ok ()

section Session

variable {σ : Type} (t : ServeTransport σ) (policy : WirePolicy)

/-- `err_to_wire`: the code and the text of an error. -/
def errToWire : WireError → UInt8 × String
  | .notARepo =>
    (EC_NOT_A_REPO, "not a src-control repo (no .sc directory at or above the working dir)")
  | .nonFastForward =>
    (EC_NON_FAST_FORWARD,
      "non-fast-forward: the remote has commits you don't have; fetch + merge first")
  | .protocol msg => (EC_PROTOCOL, "wire protocol error: " ++ msg)
  | .readOnly => (EC_READONLY, "server is read-only")
  | .packTooLarge msg => (EC_TOO_LARGE, msg)
  | .connectionBudgetExceeded msg => (EC_BUDGET, msg)
  | .remote msg => (EC_OTHER, "remote error: " ++ msg)
  | .other msg => (if t.isNotFound msg then EC_NOT_FOUND else EC_OTHER, msg)

/-- `ingest_from_tallied` and its counterpart for a bucket: nothing is written before the
whole pack has been read within the tally. -/
def ingestTallied (tally : PackTally) (pack : Bytes) (repo : σ) :
    PackTally × Except WireError (List ObjectId) × σ :=
  let records := t.parsePack pack
  let tally := tally.scan records.1
  if tally.exceeded then (tally, .error (.connectionBudgetExceeded ""), repo)
  else match records.2 with
    | .error e => (tally, .error e, repo)
    | .ok () => (tally, t.ingest pack repo)

def spillPackStream (max maxBytes : Nat) (src : Source) :
    Except WireError ((Bytes × Nat) × Source) := do
  t.openSpool
  readPackStream max maxBytes src

/-- What goes out: a response frame, or the chunk frames of a pack. -/
inductive Reply
  | response (r : Response)
  | stream (pack : Bytes)
deriving DecidableEq

/-- How a turn ends: the session goes on with what is left to read, or it is over. -/
inductive Flow
  | next (src : Source)
  | closed (result : Except WireError Unit)

/-- One turn: what was written, the bytes of a write the repository took, and how it ended. -/
structure Turn (σ : Type) where
  replies : List Reply
  taken : Option Nat
  repo : σ
  used : Nat
  flow : Flow

def responseOf : Except WireError Bytes → Response
  | .ok body => .ok body
  | .error e => .err (errToWire t e).1 (errToWire t e).2

/-- `write_ok` or `write_err`; a response that fits no frame ends the session. -/
def respond (result : Except WireError Bytes) (taken : Option Nat) (repo : σ) (used : Nat)
    (flow : Flow) : Turn σ :=
  match frameBytes (responseOf t result).encode with
  | .ok _ => ⟨[.response (responseOf t result)], taken, repo, used, flow⟩
  | .error e => ⟨[], taken, repo, used, .closed (.error e)⟩

/-- A best-effort error response before the session is closed. -/
def refuse (e : WireError) (repo : σ) (used : Nat) : Turn σ :=
  let turn := respond t (.error e) none repo used (.closed (.ok ()))
  { turn with flow := .closed (.ok ()) }

/-- A response with a body, then the pack as a stream. -/
def respondPack (chunkSize : Nat) (result : Except WireError (Bytes × Bytes)) (repo : σ)
    (used : Nat) (src : Source) : Turn σ :=
  match result with
  | .error e => respond t (.error e) none repo used (.next src)
  | .ok (body, pack) =>
    let turn := respond t (.ok body) none repo used (.next src)
    match turn.flow with
    | .closed _ => turn
    | .next _ =>
      match writePackStream chunkSize ⟨pack, fun _ => pack.length, 0⟩ with
      | .ok _ => { turn with replies := turn.replies ++ [.stream pack] }
      | .error e => { turn with flow := .closed (.error e) }

/-- The read-only gate on a `PutPack`: the stream is drained and dropped. -/
def drainPutPack (max : Nat) (repo : σ) (used : Nat) (src : Source) : Turn σ :=
  match spillPackStream t max policy.roDrainCap.toNat src with
  | .ok (_, src) => respond t (.error .readOnly) none repo used (.next src)
  | .error (.packTooLarge _) => refuse t .readOnly repo used
  | .error e => ⟨[], none, repo, used, .closed (.error e)⟩

def servePutPack (max : Nat) (repo : σ) (used : Nat) (src : Source) : Turn σ :=
  let budget : ConnBudget := ⟨policy.maxConnBytes.toNat, used⟩
  let (cap, byBudget) := budget.packCap policy.maxPackSize.toNat
  match spillPackStream t max cap src with
  | .ok ((pack, spooled), src) =>
    let left := budget.limit - budget.used
    if budget.limit ≠ 0 ∧ spooled > left then refuse t budget.refusal repo used
    else
      let tally : PackTally := ⟨if budget.limit ≠ 0 then some left else none, t.bucket, 0⟩
      let (tally, result, repo) := ingestTallied t tally pack repo
      let cost := Nat.max spooled tally.seen
      let used := saturatingAdd used cost
      match result with
      | .ok ids => respond t (.ok (idsBody ids)) (some cost) repo used (.next src)
      | .error (.connectionBudgetExceeded _) =>
        refuse t (ConnBudget.refusal ⟨policy.maxConnBytes.toNat, used⟩) repo used
      | .error e => respond t (.error e) none repo used (.next src)
  | .error e =>
    let e := match e with
      | .packTooLarge _ => if byBudget then budget.refusal else e
      | _ => e
    refuse t e repo used

def servePutObject (max : Nat) (id : ObjectId) (bytes : Bytes) (repo : σ) (used : Nat)
    (src : Source) : Turn σ :=
  let budget : ConnBudget := ⟨policy.maxConnBytes.toNat, used⟩
  let used := (budget.spend bytes.length).used
  match budget.charge bytes.length with
  | .error e => refuse t e repo used
  | .ok () =>
    match checkObjectLen bytes.length max with
    | .error e => respond t (.error e) none repo used (.next src)
    | .ok () =>
      let (result, repo) := t.putObject id bytes repo
      match result with
      | .ok () => respond t (.ok []) (some bytes.length) repo used (.next src)
      | .error e => respond t (.error e) none repo used (.next src)

/-- One well-formed request; `max` is the object size limit and `src` what follows it. -/
def serveRequest (max chunkSize : Nat) (repo : σ) (used : Nat) (src : Source) :
    Request → Turn σ
  | .bye => ⟨[], none, repo, used, .closed (.ok ())⟩
  | .getPack wants haves filter blobLimit =>
    respondPack t chunkSize ((t.buildPack wants haves filter blobLimit repo).map (([], ·))) repo
      used src
  | .getObjects ids =>
    let result := if t.bucket then
        .error (.other "invalid argument: bucket remotes do not support by-id object fetch")
      else t.buildObjects ids (byIdReplyCap policy.maxPackSize.toNat) repo
    respondPack t chunkSize (result.map (fun r => (idsBody r.1, r.2))) repo used src
  | .putPack =>
    if policy.readOnly then drainPutPack t policy max repo used src
    else servePutPack t policy max repo used src
  | .putObject id bytes =>
    if policy.readOnly then respond t (.error .readOnly) none repo used (.next src)
    else servePutObject t policy max id bytes repo used src
  | .updateRef branch id expectedOld =>
    if policy.readOnly then respond t (.error .readOnly) none repo used (.next src)
    else
      let (result, repo) := t.updateRef branch id expectedOld repo
      respond t (result.map (fun _ => [])) none repo used (.next src)
  | .hello _ =>
    respond t (.error (.protocol "unexpected HELLO mid-session")) none repo used (.next src)
  | .listRefs => respond t ((t.listRefs repo).map refsBody) none repo used (.next src)
  | .headBranch => respond t ((t.headBranch repo).map strBody) none repo used (.next src)
  | .hasObject id => respond t ((t.hasObject id repo).map boolBody) none repo used (.next src)
  | .getObject id => respond t (t.getObject id repo) none repo used (.next src)

/-- A turn with the request it answers, `none` for a frame that is none. -/
structure Exchange (σ : Type) where
  request : Option Request
  before : σ × Nat
  turn : Turn σ

/-- The session: its turns, and how it ended. Every turn takes a frame off the source. -/
def serveLoop (max chunkSize : Nat) :
    Nat → σ → Nat → Source → List (Exchange σ) × Except WireError Unit
  | 0, _, _, _ => ([], .error (.other "out of rounds"))
  | fuel + 1, repo, used, src =>
    match readFrame max src with
    | .error e => ([], .error e)
    | .ok (none, _) => ([], .ok ())
    | .ok (some frame, src) =>
      match Request.decodeOwned frame with
      | .error e =>
        let turn := respond t (.error e) none repo used (.closed (.ok ()))
        ([⟨none, (repo, used), turn⟩], match turn.flow with
          | .closed result => result
          | .next _ => .ok ())
      | .ok req =>
        let turn := serveRequest t policy max chunkSize repo used src req
        match turn.flow with
        | .closed result => ([⟨some req, (repo, used), turn⟩], result)
        | .next src =>
          let rest := serveLoop max chunkSize fuel turn.repo turn.used src
          (⟨some req, (repo, used), turn⟩ :: rest.1, rest.2)

def serveSession (max chunkSize : Nat) (repo : σ) (src : Source) :
    List (Exchange σ) × Except WireError Unit :=
  serveLoop t policy max chunkSize (src.data.length + 1) repo 0 src

end Session

end SrcControl.Wire
