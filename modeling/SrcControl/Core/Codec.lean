import SrcControl.Core.Error
import SrcControl.Lib.ByteReader

/-!
# Canonical encoding

The byte form whose hash is an object's address: a kind tag, then the fields, big-endian
and length-prefixed. `Fields` is one kind's fields as they stand in the bytes; `encode`
sorts what an object keeps unsorted and writes the fields out, `decode` reads them and
collects the maps. A slice is sorted by a stable sort, which is one of the orders an
unstable sort may leave and leaves a sorted slice alone.
-/

namespace SrcControl

open ByteReader (Reader beBytes ofBe)

/-! ## Kind tags -/

def TAG_BLOB : UInt8 := 0
def TAG_TREE : UInt8 := 1
/-- The encoding before the protection rules; refused with a clear error. -/
def TAG_SNAPSHOT_LEGACY : UInt8 := 2
def TAG_SECRET : UInt8 := 3
def TAG_SNAPSHOT : UInt8 := 4
def TAG_SIGNATURE : UInt8 := 5
def TAG_TRANSCRIPT : UInt8 := 6
def TAG_SEALED : UInt8 := 7
def TAG_MANIFEST : UInt8 := 8

/-- `s.as_bytes()`. -/
def utf8 (s : String) : Bytes := s.toByteArray.data.toList

structure SnapshotFields where
  root : ObjectId
  parents : List ObjectId
  author : String
  timestamp : Int64
  message : String
  secrets : List (String × ObjectId)
  prefixes : List ProtectPrefix
  wrapped : List (ObjectId × List WrappedKey)

inductive Fields
  | blob (bytes : Bytes)
  | tree (entries : List TreeEntry)
  | snapshot (s : SnapshotFields)
  | secret (s : Secret)
  | signature (s : SignatureObj)
  | transcript (t : Transcript)
  | sealed (s : SealedObj)
  | manifest (m : BranchManifest)

/-! ## Writing -/

namespace Writer

/-- `(v as u32).to_be_bytes()`. -/
def u32 (v : Nat) : Bytes := beBytes 4 v

def i64 (v : Int64) : Bytes := beBytes 8 v.toUInt64.toNat

def bytes (b : Bytes) : Bytes := u32 b.length ++ b

def str (s : String) : Bytes := bytes (utf8 s)

def id (i : ObjectId) : Bytes := i.bytes

/-- A count and the elements. -/
def list {α : Type} (write : α → Bytes) (xs : List α) : Bytes := u32 xs.length ++ xs.flatMap write

def kind : EntryKind → UInt8
  | .blob => 0
  | .tree => 1

def state : RecipientState → UInt8
  | .granted => 0
  | .revoked => 1

def entry (e : TreeEntry) : Bytes :=
  str e.name ++ ([kind e.kind] ++ (id e.id ++ (u32 e.mode.bits.toNat ++ [e.perms])))

def recipient (r : RecipientEntry) : Bytes := r.key ++ (u32 r.epoch.toNat ++ [state r.state])

def rule (p : ProtectPrefix) : Bytes := str p.pathPrefix ++ list recipient p.recipients

def wrappedKey (k : WrappedKey) : Bytes := str k.recipientId ++ bytes k.wrappedDek

def secretRow (s : String × ObjectId) : Bytes := str s.1 ++ id s.2

def wrappedRow (w : ObjectId × List WrappedKey) : Bytes := id w.1 ++ list wrappedKey w.2

def snapshot (s : SnapshotFields) : Bytes :=
  id s.root ++ (list id s.parents ++ (str s.author ++ (i64 s.timestamp ++ (str s.message ++
    (list secretRow s.secrets ++ (list rule s.prefixes ++ list wrappedRow s.wrapped))))))

def secret (s : Secret) : Bytes :=
  str s.name ++ (bytes s.nonce ++ (bytes s.ciphertext ++ list wrappedKey s.wrappedKeys))

def signature (s : SignatureObj) : Bytes := id s.snapshot ++ (s.signer ++ s.sig)

def transcript (t : Transcript) : Bytes :=
  id t.snapshot ++ (str t.agent ++ (str t.session ++ (bytes t.nonce ++ (bytes t.ciphertext ++
    list wrappedKey t.wrappedKeys))))

def prev : Option ObjectId → Bytes
  | some p => 1 :: id p
  | none => [0]

def manifest (m : BranchManifest) : Bytes :=
  id m.base ++ (prev m.prev ++ (list id m.anchors ++ (list id m.closure ++ (bytes m.indexCt ++
    list wrappedKey m.kekWraps))))

end Writer

/-- The fields laid out one after another behind the tag of their kind. -/
def Fields.bytes : Fields → Bytes
  | .blob b => TAG_BLOB :: b
  | .tree es => TAG_TREE :: Writer.list Writer.entry es
  | .snapshot s => TAG_SNAPSHOT :: Writer.snapshot s
  | .secret s => TAG_SECRET :: Writer.secret s
  | .signature s => TAG_SIGNATURE :: Writer.signature s
  | .transcript t => TAG_TRANSCRIPT :: Writer.transcript t
  | .sealed s => TAG_SEALED :: s.payload
  | .manifest m => TAG_MANIFEST :: Writer.manifest m

def sortIds (ids : List ObjectId) : List ObjectId := ids.mergeSort (fun a b => (compare a b).isLE)

/-- `sorted.sort_unstable_by_key(|a| a.key)`. -/
def sortRecipients (rs : List RecipientEntry) : List RecipientEntry :=
  rs.mergeSort (fun a b => (compare a.key b.key).isLE)

/-- The rules by prefix, each with its registers by key. -/
def sortRules (ps : List ProtectPrefix) : List ProtectPrefix :=
  (ps.mergeSort (fun a b => (compare a.pathPrefix b.pathPrefix).isLE)).map
    (fun p => { p with recipients := sortRecipients p.recipients })

namespace Object

/-- What `encode` writes out: the lists sorted, the maps in key order. -/
def fields : Object → Fields
  | .blob b => .blob b
  | .tree t => .tree t.entries
  | .snapshot s => .snapshot ⟨s.root, s.parents, s.author, s.timestamp, s.message,
      s.secrets.toList, sortRules s.protection.prefixes, s.protection.wrapped.toList⟩
  | .secret s => .secret s
  | .signature s => .signature s
  | .transcript t => .transcript t
  | .sealed s => .sealed s
  | .manifest m => .manifest { m with anchors := sortIds m.anchors, closure := sortIds m.closure }

def encode (o : Object) : Bytes := o.fields.bytes

/-- The content address: `hash` is the digest function. -/
def id (hash : Bytes → Bytes) (o : Object) : ObjectId := ⟨hash o.encode⟩

end Object

/-! ## Reading -/

namespace ObjectReader

def take (n : Nat) : Reader CoreError Bytes :=
  ByteReader.take (fun _ => .malformed "unexpected end of object") n

def u8 : Reader CoreError UInt8 := do
  let b ← take 1
  pure (b.headD 0)

def u32 : Reader CoreError Nat := do
  let b ← take 4
  pure (ofBe b)

def i64 : Reader CoreError Int64 := do
  let b ← take 8
  pure (UInt64.ofNat (ofBe b)).toInt64

def id : Reader CoreError ObjectId := do
  let b ← take 32
  pure ⟨b⟩

def bytes : Reader CoreError Bytes := do
  let n ← u32
  take n

def str : Reader CoreError String := do
  let b ← bytes
  match String.fromUTF8? ⟨b.toArray⟩ with
  | some s => pure s
  | none => throw (.malformed "invalid utf-8 sequence")

/-- A `u32` count, refused when it exceeds the bytes left, and as many elements. -/
def list {α : Type} (read : Reader CoreError α) : Reader CoreError (List α) := do
  let n ← u32
  let left ← ByteReader.remaining
  if n > left then throw (.malformed "element count exceeds remaining bytes")
  else ByteReader.times n read

def rest : Reader CoreError Bytes := fun c => .ok (c.rest, ⟨c.buf, c.buf.length⟩)

def kind : Reader CoreError EntryKind := do
  let k ← u8
  if k = 0 then pure .blob
  else if k = 1 then pure .tree
  else throw (.malformed s!"bad entry kind {k}")

def state : Reader CoreError RecipientState := do
  let s ← u8
  if s = 0 then pure .granted
  else if s = 1 then pure .revoked
  else throw (.malformed s!"bad recipient state {s}")

def entry : Reader CoreError TreeEntry := do
  let name ← str
  let kind ← kind
  let id ← id
  let mode ← u32
  let perms ← u8
  pure ⟨name, kind, id, ⟨UInt32.ofNat mode⟩, perms⟩

def recipient : Reader CoreError RecipientEntry := do
  let key ← take 32
  let epoch ← u32
  let state ← state
  pure ⟨key, UInt32.ofNat epoch, state⟩

def rule : Reader CoreError ProtectPrefix := do
  let pathPrefix ← str
  let recipients ← list recipient
  pure ⟨pathPrefix, recipients⟩

def wrappedKey : Reader CoreError WrappedKey := do
  let recipientId ← str
  let wrappedDek ← bytes
  pure ⟨recipientId, wrappedDek⟩

def secretRow : Reader CoreError (String × ObjectId) := do
  let name ← str
  let id ← id
  pure (name, id)

def wrappedRow : Reader CoreError (ObjectId × List WrappedKey) := do
  let id ← id
  let wks ← list wrappedKey
  pure (id, wks)

def snapshot : Reader CoreError SnapshotFields := do
  let root ← id
  let parents ← list id
  let author ← str
  let timestamp ← i64
  let message ← str
  let secrets ← list secretRow
  let prefixes ← list rule
  let wrapped ← list wrappedRow
  pure ⟨root, parents, author, timestamp, message, secrets, prefixes, wrapped⟩

def secret : Reader CoreError Secret := do
  let name ← str
  let nonce ← bytes
  let ciphertext ← bytes
  let wrappedKeys ← list wrappedKey
  pure ⟨name, nonce, ciphertext, wrappedKeys⟩

def signature : Reader CoreError SignatureObj := do
  let snapshot ← id
  let signer ← take 32
  let sig ← take 64
  pure ⟨snapshot, signer, sig⟩

def transcript : Reader CoreError Transcript := do
  let snapshot ← id
  let agent ← str
  let session ← str
  let nonce ← bytes
  let ciphertext ← bytes
  let wrappedKeys ← list wrappedKey
  pure ⟨snapshot, agent, session, nonce, ciphertext, wrappedKeys⟩

def prev : Reader CoreError (Option ObjectId) := do
  let b ← u8
  if b = 0 then pure none
  else if b = 1 then do
    let p ← id
    pure (some p)
  else throw (.malformed s!"bad manifest prev marker {b}")

def manifest : Reader CoreError BranchManifest := do
  let base ← id
  let prev ← prev
  let anchors ← list id
  let closure ← list id
  let indexCt ← bytes
  let kekWraps ← list wrappedKey
  pure ⟨base, prev, anchors, closure, indexCt, kekWraps⟩

/-- The signature is the one kind that refuses bytes behind its last field. -/
def signatureOnly : Reader CoreError Fields := do
  let s ← signature
  let left ← ByteReader.remaining
  if left ≠ 0 then throw (.malformed "trailing bytes in signature object")
  else pure (.signature s)

/-- The fields behind the tag. -/
def body (tag : UInt8) : Reader CoreError Fields :=
  if tag = TAG_BLOB then Fields.blob <$> rest
  else if tag = TAG_TREE then Fields.tree <$> list entry
  else if tag = TAG_SNAPSHOT_LEGACY then
    throw (.malformed ("pre-P16 snapshot encoding (tag 2): this store predates the ADR-0026 " ++
      "protection-rule format break and cannot be read by this version"))
  else if tag = TAG_SNAPSHOT then Fields.snapshot <$> snapshot
  else if tag = TAG_SECRET then Fields.secret <$> secret
  else if tag = TAG_SIGNATURE then signatureOnly
  else if tag = TAG_TRANSCRIPT then Fields.transcript <$> transcript
  else if tag = TAG_SEALED then (fun b => Fields.sealed ⟨b⟩) <$> rest
  else if tag = TAG_MANIFEST then Fields.manifest <$> manifest
  else throw (.malformed s!"unknown object tag {tag}")

end ObjectReader

/-- The object the fields make, the rows of its maps inserted in turn. -/
def Fields.object : Fields → Object
  | .blob b => .blob b
  | .tree es => .tree ⟨es⟩
  | .snapshot s => .snapshot ⟨s.root, s.parents, s.author, s.timestamp, s.message,
      BTreeMap.ofList s.secrets, ⟨s.prefixes, BTreeMap.ofList s.wrapped⟩⟩
  | .secret s => .secret s
  | .signature s => .signature s
  | .transcript t => .transcript t
  | .sealed s => .sealed s
  | .manifest m => .manifest m

def Object.decode (bytes : Bytes) : Except CoreError Object := do
  let (tag, c) ← ObjectReader.u8 ⟨bytes, 0⟩
  let (f, _) ← ObjectReader.body tag c
  pure f.object

/-- What every read of stored or received bytes does: check the address, then decode. -/
def Object.decodeVerified (hash : Bytes → Bytes) (failed : CoreError) (id : ObjectId)
    (canonical : Bytes) : Except CoreError Object :=
  if (⟨hash canonical⟩ : ObjectId) = id then Object.decode canonical else .error failed

end SrcControl
