import SrcControl.Lib.Checked
import SrcControl.Core.CodecExact
import SrcControl.Repo.WireStream

/-!
# Packs

Many objects behind one header, each record its id, the length of its compressed bytes and those
bytes, and an index from id to record. Compression is a parameter: a decoder hands out bytes as a
source does and may end in an error. Every sum on 64-bit words and every slice that the readers
make can fault.
-/

namespace SrcControl.Pack

open ByteReader (leBytes ofLe)
open Checked (Stop add64 slice)
open Wire (Source readLimited readUpTo)

/-- "SCPK". -/
def PACK_MAGIC : Bytes := [0x53, 0x43, 0x50, 0x4b]

/-- "SCIX". -/
def IDX_MAGIC : Bytes := [0x53, 0x43, 0x49, 0x58]

def FORMAT_VERSION : Nat := 1

def OBJECT_SIZE_HINT : String :=
  "only the receiving side's cap applies: raise SC_MAX_OBJECT_SIZE (or " ++
  "\x60sc serve --max-object-size\x60 on a server) on the side that is refusing"

/-- What a decoder over one payload hands out, and the error its reads end in. -/
structure Decoder where
  source : Source
  fault : Option String

structure Zstd where
  encodeAll : Bytes → Except String Bytes
  decoder : Bytes → Except String Decoder

/-- One `.idx` row. -/
structure IndexEntry where
  id : ObjectId
  /-- Where the record's length stands in the pack. -/
  offset : Nat
  length : Nat
deriving DecidableEq, Repr

/-! ## Writing -/

def packHeader : Bytes := PACK_MAGIC ++ leBytes 4 FORMAT_VERSION

def rowBytes (e : IndexEntry) : Bytes := e.id.bytes ++ (leBytes 8 e.offset ++ leBytes 8 e.length)

def sortEntries (entries : List IndexEntry) : List IndexEntry :=
  entries.mergeSort (fun a b => (compare a.id b.id).isLE)

/-- The index of rows that are in order. -/
def indexBytes (entries : List IndexEntry) : Bytes :=
  IDX_MAGIC ++ (leBytes 4 FORMAT_VERSION ++ (leBytes 8 entries.length ++ entries.flatMap rowBytes))

def addRecord (z : Zstd) (acc : Bytes × List IndexEntry) (object : ObjectId × Bytes) :
    Except CoreError (Bytes × List IndexEntry) :=
  match z.encodeAll object.2 with
  | .error _ => .error .io
  | .ok compressed =>
    let offset := (acc.1 ++ object.1.bytes).length
    .ok (acc.1 ++ object.1.bytes ++ (leBytes 4 compressed.length ++ compressed),
      acc.2 ++ [⟨object.1, offset, compressed.length⟩])

/-- `build_pack`: the pack in input order and its index in the order of the ids. -/
def buildPack (z : Zstd) (objects : List (ObjectId × Bytes)) : Except CoreError (Bytes × Bytes) := do
  let (pack, entries) ← objects.foldlM (addRecord z) (packHeader, [])
  .ok (pack, indexBytes (sortEntries entries))

structure PackWriter where
  /-- What the sink has received. -/
  out : Bytes
  pos : Nat
  countWritten : Nat
  expectedCount : Nat
  entries : List IndexEntry

namespace PackWriter

def new (count : Nat) : PackWriter := ⟨packHeader, 8, 0, count, []⟩

/-- `count_written += 1`, on a 32-bit word. -/
def countUp (n : Nat) : Except (Stop CoreError) Nat :=
  if n + 1 < 2 ^ 32 then .ok (n + 1) else .error .overflow

def writeObject (z : Zstd) (w : PackWriter) (object : ObjectId × Bytes) :
    Except (Stop CoreError) PackWriter :=
  match z.encodeAll object.2 with
  | .error _ => .error (.error .io)
  | .ok compressed => do
    let offset ← add64 w.pos 32
    let data ← add64 offset 4
    let pos ← add64 data compressed.length
    let countWritten ← countUp w.countWritten
    .ok { w with
      out := w.out ++ object.1.bytes ++ (leBytes 4 compressed.length ++ compressed)
      pos := pos
      countWritten := countWritten
      entries := w.entries ++ [⟨object.1, offset, compressed.length⟩] }

/-- The index, once as many objects as promised are written. -/
def finish (w : PackWriter) : Except (Stop CoreError) Bytes :=
  if w.countWritten ≠ w.expectedCount then
    .error (.error (.packCorrupt (s!"PackWriter finished with {w.countWritten} of " ++
      s!"{w.expectedCount} promised objects written")))
  else .ok (indexBytes (sortEntries w.entries))

/-- A writer for `count` objects that is given `objects`: the pack and its index. -/
def writeAll (z : Zstd) (count : Nat) (objects : List (ObjectId × Bytes)) :
    Except (Stop CoreError) (Bytes × Bytes) := do
  let w ← objects.foldlM (writeObject z) (new count)
  let idx ← w.finish
  .ok (w.out, idx)

end PackWriter

/-! ## The index -/

/-- The bytes of one row. -/
def ROW : Nat := 32 + 8 + 8

/-- The rows `i`, `i + 1`, …: `left` of them. -/
def parseRows (idx : Bytes) (prev : Option ObjectId) (i : Nat) :
    Nat → Except (Stop CoreError) (List IndexEntry)
  | 0 => .ok []
  | left + 1 => do
    let base := 16 + i * ROW
    let idBytes ← slice idx base (base + 32)
    let id : ObjectId := ⟨idBytes⟩
    if prev.any (fun p => (compare p id).isGE) then
      .error (.error (.badPackIndex "entries not strictly ascending"))
    else
      let offset ← slice idx (base + 32) (base + 40)
      let length ← slice idx (base + 40) (base + 48)
      let out ← parseRows idx (some id) (i + 1) left
      .ok (⟨id, ofLe offset, ofLe length⟩ :: out)

def parseIndex (idx : Bytes) : Except (Stop CoreError) (List IndexEntry) :=
  if idx.length < 16 ∨ idx.take 4 ≠ IDX_MAGIC then
    .error (.error (.badPackIndex "missing magic"))
  else
    let ver := ofLe ((idx.drop 4).take 4)
    if ver ≠ FORMAT_VERSION then .error (.error (.badPackIndex s!"unsupported version {ver}"))
    else
      let count := ofLe ((idx.drop 8).take 8)
      if count * ROW + 16 ≥ 2 ^ 64 then .error (.error (.badPackIndex "entry count overflow"))
      else if idx.length ≠ count * ROW + 16 then
        .error (.error (.badPackIndex "length does not match count"))
      else parseRows idx none 0 count

/-! ## Random access -/

def overCap (what : String) (max : Nat) : CoreError :=
  .packCorrupt s!"{what} exceeds the {max}-byte object size limit ({OBJECT_SIZE_HINT})"

def checkCap (len : Nat) : Option Nat → Except (Stop CoreError) Unit
  | none => .ok ()
  | some max =>
    if len > max then .error (.error (overCap s!"record compressed length {len}" max)) else .ok ()

/-- `record_bounds`: where the payload of the record at `offset` starts and ends. -/
def recordBounds (pack : Bytes) (offset : Nat) (max : Option Nat) :
    Except (Stop CoreError) (Nat × Nat) := do
  let start ← add64 offset 4
  if start > pack.length then .error (.error (.packCorrupt s!"offset {offset} past end"))
  else
    let lenBytes ← slice pack offset start
    let len := ofLe lenBytes
    checkCap len max
    let stop ← add64 start len
    if stop > pack.length then
      .error (.error (.packCorrupt s!"record at {offset} runs past end"))
    else .ok (start, stop)

def zstdFailed (e : String) : CoreError := .packCorrupt s!"zstd decode failed: {e}"

/-- `payload.len().saturating_mul(4)`. -/
def firstStep (payload : Bytes) : Nat := min (payload.length * 4) (2 ^ 64 - 1)

/-- What `read_limited` gets out of a decoder: it meets the error only past the last byte. -/
def readDecoder (limit first : Nat) (d : Decoder) : Except String Bytes × Nat :=
  let r := readLimited limit first d.source
  match d.fault with
  | some e => if r.1.length < limit then (.error e, r.1.length) else (.ok r.1, r.1.length)
  | none => (.ok r.1, r.1.length)

/-- The canonical bytes of a payload under a cap, and how many bytes were decompressed. -/
def decompressMax (z : Zstd) (payload : Bytes) (max : Nat) :
    Except (Stop CoreError) Bytes × Nat :=
  match z.decoder payload with
  | .error e => (.error (.error (zstdFailed e)), 0)
  | .ok d =>
    match (add64 max 1 : Except (Stop CoreError) Nat) with
    | .error fault => (.error fault, 0)
    | .ok limit =>
      match readDecoder limit (firstStep payload) d with
      | (.error e, taken) => (.error (.error (zstdFailed e)), taken)
      | (.ok canonical, taken) =>
        if canonical.length > max then (.error (.error (overCap "decompressed object" max)), taken)
        else (.ok canonical, taken)

/-- `zstd::decode_all`. -/
def decodeAll (z : Zstd) (payload : Bytes) : Except (Stop CoreError) Bytes × Nat :=
  match z.decoder payload with
  | .error e => (.error (.error (zstdFailed e)), 0)
  | .ok d =>
    match d.fault with
    | some e => (.error (.error (zstdFailed e)), d.source.data.length)
    | none => (.ok d.source.data, d.source.data.length)

def stopped {α : Type} : Except CoreError α → Except (Stop CoreError) α
  | .error e => .error (.error e)
  | .ok a => .ok a

/-- `decompress_and_decode`: the object, and how many bytes were decompressed for it. -/
def decompressAndDecode (z : Zstd) (hash : Bytes → Bytes) (payload : Bytes) (id : ObjectId)
    (max : Option Nat) : Except (Stop CoreError) Object × Nat :=
  let r := match max with
    | none => decodeAll z payload
    | some max => decompressMax z payload max
  (r.1 >>= fun canonical => stopped (Object.decodeVerified hash
    (.malformed s!"packed object {id.short} failed hash verification") id canonical), r.2)

def readRecordAt (z : Zstd) (hash : Bytes → Bytes) (pack : Bytes) (offset : Nat) (id : ObjectId)
    (max : Option Nat) : Except (Stop CoreError) Object × Nat :=
  match recordBounds pack offset max with
  | .error fault => (.error fault, 0)
  | .ok (start, stop) =>
    match (slice pack start stop : Except (Stop CoreError) Bytes) with
    | .error fault => (.error fault, 0)
    | .ok payload => decompressAndDecode z hash payload id max

/-- The trusted path, with no cap. -/
def readObjectAt (z : Zstd) (hash : Bytes → Bytes) (pack : Bytes) (offset : Nat) (id : ObjectId) :
    Except (Stop CoreError) Object :=
  (readRecordAt z hash pack offset id none).1

/-- The outcome, and how many bytes were decompressed on the way to it. -/
def readObjectAtBounded (z : Zstd) (hash : Bytes → Bytes) (pack : Bytes) (offset : Nat)
    (id : ObjectId) (max : Nat) : Except (Stop CoreError) Object × Nat :=
  readRecordAt z hash pack offset id (some max)

/-! ## Streaming -/

/-- One round of the loop of `parse_pack_reader_max`; `none` at a clean end of the pack. -/
def readRecord (z : Zstd) (hash : Bytes → Bytes) (max : Nat) (s : Source) :
    Except (Stop CoreError) (Option ((ObjectId × Object) × Source)) := do
  let idRead := readUpTo 32 s
  if idRead.1 = [] then .ok none
  else if idRead.1.length ≠ 32 then .error (.error (.packCorrupt "truncated record id"))
  else
    let expected : ObjectId := ⟨idRead.1⟩
    let lenRead := readUpTo 4 idRead.2
    if lenRead.1.length < 4 then
      .error (.error (.packCorrupt "truncated record length: failed to fill whole buffer"))
    else
      let len := ofLe lenRead.1
      if len > max then .error (.error (overCap s!"record compressed length {len}" max))
      else
        let body := readLimited len len lenRead.2
        if body.1.length < len then
          .error (.error (.packCorrupt "truncated record payload: unexpected end of file"))
        else
          let canonical ← (decompressMax z body.1 max).1
          let actual : ObjectId := ⟨hash canonical⟩
          let obj ← stopped (Object.decodeVerified hash (.packCorrupt
            s!"hash mismatch: expected {expected.short}, got {actual.short}") expected canonical)
          .ok (some ((actual, obj), body.2))

variable {σ : Type}

/-- What is called with each record; what it did stays done when it stops the parse. -/
abbrev Callback (σ : Type) := ObjectId → Object → EStateM (Stop CoreError) σ Unit

/-- The rounds of `parse_pack_reader_max`: every one takes a record off the source. -/
def parseRecords (z : Zstd) (hash : Bytes → Bytes) (max : Nat) (f : Callback σ) :
    Nat → Source → EStateM (Stop CoreError) σ Unit
  | 0, _ => throw (.error (.packCorrupt "out of rounds"))
  | rounds + 1, s =>
    match readRecord z hash max s with
    | .error e => throw e
    | .ok none => pure ()
    | .ok (some (r, s')) => do
      f r.1 r.2
      parseRecords z hash max f rounds s'

def parsePackReaderMax (z : Zstd) (hash : Bytes → Bytes) (max : Nat) (s : Source)
    (f : Callback σ) : EStateM (Stop CoreError) σ Unit :=
  let header := readUpTo 8 s
  if header.1.length < 8 then
    throw (.error (.packCorrupt "truncated header: failed to fill whole buffer"))
  else if header.1.take 4 ≠ PACK_MAGIC then throw (.error (.packCorrupt "missing magic"))
  else
    let ver := ofLe (header.1.drop 4)
    if ver ≠ FORMAT_VERSION then
      throw (.error (.packCorrupt s!"unsupported version {ver}"))
    else parseRecords z hash max f (s.data.length + 1) header.2

end SrcControl.Pack
