import SrcControl.Core.CodecExact
import SrcControl.Core.Error

/-!
# Wire messages

Requests, responses and their field encodings. A frame's payload is read by a cursor that
must end with the frame. Every reader is shown to accept exactly what its writer writes,
so a frame has one reading, and the reader that takes a frame apart in place agrees with
the one that copies.
-/

namespace SrcControl.Wire

open ByteReader (Reader Reads Parses ofBe)

def OP_HELLO : UInt8 := 0x01
def OP_BYE : UInt8 := 0x02
def OP_LIST_REFS : UInt8 := 0x10
def OP_HEAD_BRANCH : UInt8 := 0x11
def OP_HAS_OBJECT : UInt8 := 0x12
def OP_GET_OBJECT : UInt8 := 0x13
def OP_PUT_OBJECT : UInt8 := 0x14
def OP_UPDATE_REF : UInt8 := 0x15
def OP_GET_PACK : UInt8 := 0x16
def OP_PUT_PACK : UInt8 := 0x17
def OP_GET_OBJECTS : UInt8 := 0x18

/-- Most object ids one `GetObjects` request may carry. -/
def MAX_GET_OBJECTS_IDS : Nat := 1024

def ST_OK : UInt8 := 0
def ST_ERR : UInt8 := 1

def EC_NOT_A_REPO : UInt8 := 1
def EC_NON_FAST_FORWARD : UInt8 := 2
def EC_NOT_FOUND : UInt8 := 3
def EC_PROTOCOL : UInt8 := 4
def EC_READONLY : UInt8 := 5
def EC_TOO_LARGE : UInt8 := 6
def EC_BUDGET : UInt8 := 7
def EC_OTHER : UInt8 := 255

/-- The errors the protocol layer raises or carries; `other` is any further error by the
text it is displayed as. -/
inductive WireError
  | notARepo
  | nonFastForward
  | protocol (msg : String)
  | readOnly
  | packTooLarge (msg : String)
  | connectionBudgetExceeded (msg : String)
  | remote (msg : String)
  | other (msg : String)
deriving DecidableEq, Repr

inductive Request
  | hello (version : UInt32)
  | bye
  | listRefs
  | headBranch
  | hasObject (id : ObjectId)
  | getObject (id : ObjectId)
  | putObject (id : ObjectId) (bytes : Bytes)
  | updateRef (branch : String) (id : ObjectId) (expectedOld : Option ObjectId)
  | getPack (wants haves : List ObjectId) (filter : List String) (blobLimit : Option UInt64)
  | putPack
  | getObjects (ids : List ObjectId)
deriving DecidableEq

/-! ## Writing -/

/-- `1` and the value, or `0`. -/
def putOption {α : Type} (write : α → Bytes) : Option α → Bytes
  | some a => 1 :: write a
  | none => [0]

def putU64 (v : UInt64) : Bytes := ByteReader.beBytes 8 v.toNat

def Request.encode : Request → Bytes
  | .hello version => OP_HELLO :: Writer.u32 version.toNat
  | .bye => [OP_BYE]
  | .listRefs => [OP_LIST_REFS]
  | .headBranch => [OP_HEAD_BRANCH]
  | .hasObject id => OP_HAS_OBJECT :: Writer.id id
  | .getObject id => OP_GET_OBJECT :: Writer.id id
  | .putObject id bytes => OP_PUT_OBJECT :: (Writer.id id ++ Writer.bytes bytes)
  | .updateRef branch id expectedOld =>
    OP_UPDATE_REF :: (Writer.str branch ++ (Writer.id id ++ putOption Writer.id expectedOld))
  | .getPack wants haves filter blobLimit =>
    OP_GET_PACK :: (Writer.list Writer.id wants ++ (Writer.list Writer.id haves ++
      (Writer.list Writer.str filter ++ putOption putU64 blobLimit)))
  | .putPack => [OP_PUT_PACK]
  | .getObjects ids => OP_GET_OBJECTS :: Writer.list Writer.id ids

/-! ## Reading -/

namespace Cur

def take (n : Nat) : Reader WireError Bytes :=
  ByteReader.take (fun _ => .protocol "truncated frame") n

def u8 : Reader WireError UInt8 := do
  let b ← take 1
  pure (b.headD 0)

def u32 : Reader WireError Nat := do
  let b ← take 4
  pure (ofBe b)

def u64 : Reader WireError UInt64 := do
  let b ← take 8
  pure (UInt64.ofNat (ofBe b))

def id : Reader WireError ObjectId := do
  let b ← take 32
  pure ⟨b⟩

def bytes : Reader WireError Bytes := do
  let n ← u32
  take n

def str : Reader WireError String := do
  let b ← bytes
  match String.fromUTF8? ⟨b.toArray⟩ with
  | some s => pure s
  | none => throw (.protocol "non-utf8 string")

/-- A `u32` count and as many elements. -/
def counted {α : Type} (read : Reader WireError α) : Reader WireError (List α) := do
  let n ← u32
  ByteReader.times n read

def ids : Reader WireError (List ObjectId) := counted id

def strs : Reader WireError (List String) := counted str

/-- A count above the limit is refused before any id is read. -/
def idsCapped (max : Nat) : Reader WireError (List ObjectId) := do
  let n ← u32
  if n > max then throw (.packTooLarge s!"request names {n} ids, limit is {max}")
  else ByteReader.times n id

/-- A flag byte and, behind `1`, the value. -/
def option {α : Type} (bad : UInt8 → WireError) (read : Reader WireError α) :
    Reader WireError (Option α) := do
  let t ← u8
  if t = 0 then pure none
  else if t = 1 then do
    let a ← read
    pure (some a)
  else throw (bad t)

/-- What is read, when it is the whole frame. -/
def whole {α : Type} (read : Reader WireError α) (payload : Bytes) : Except WireError α := do
  let r ← read ⟨payload, 0⟩
  if r.2.pos = r.2.buf.length then .ok r.1 else .error (.protocol "trailing bytes in frame")

end Cur

namespace Request

def putObjectFields : Reader WireError (ObjectId × Bytes) := do
  let id ← Cur.id
  let bytes ← Cur.bytes
  pure (id, bytes)

def updateRefFields : Reader WireError (String × ObjectId × Option ObjectId) := do
  let branch ← Cur.str
  let id ← Cur.id
  let expectedOld ← Cur.option (fun _ => .protocol "bad expected_old flag") Cur.id
  pure (branch, id, expectedOld)

def getPackFields :
    Reader WireError (List ObjectId × List ObjectId × List String × Option UInt64) := do
  let wants ← Cur.ids
  let haves ← Cur.ids
  let filter ← Cur.strs
  let blobLimit ← Cur.option (fun t => .protocol s!"bad blob_limit tag {t}") Cur.u64
  pure (wants, haves, filter, blobLimit)

/-- The fields behind the opcode. -/
def body (op : UInt8) : Reader WireError Request :=
  if op = OP_HELLO then (fun v => hello (UInt32.ofNat v)) <$> Cur.u32
  else if op = OP_BYE then pure bye
  else if op = OP_LIST_REFS then pure listRefs
  else if op = OP_HEAD_BRANCH then pure headBranch
  else if op = OP_HAS_OBJECT then hasObject <$> Cur.id
  else if op = OP_GET_OBJECT then getObject <$> Cur.id
  else if op = OP_PUT_OBJECT then (fun f => putObject f.1 f.2) <$> putObjectFields
  else if op = OP_UPDATE_REF then (fun f => updateRef f.1 f.2.1 f.2.2) <$> updateRefFields
  else if op = OP_GET_PACK then (fun f => getPack f.1 f.2.1 f.2.2.1 f.2.2.2) <$> getPackFields
  else if op = OP_PUT_PACK then pure putPack
  else if op = OP_GET_OBJECTS then getObjects <$> Cur.idsCapped MAX_GET_OBJECTS_IDS
  else throw (.protocol ("unknown opcode 0x" ++ hexEncode [op]))

def read : Reader WireError Request := do
  let op ← Cur.u8
  body op

def decode (payload : Bytes) : Except WireError Request := Cur.whole read payload

/-- `1 + 32 + 4`. -/
def HEADER : Nat := 1 + 32 + 4

/-- The object of a `PutObject` frame is moved out behind the header; every other frame,
malformed ones among them, goes to `decode`. -/
def decodeOwned (frame : Bytes) : Except WireError Request :=
  if frame.length ≥ HEADER ∧ frame.head? = some OP_PUT_OBJECT ∧
      frame.length - HEADER = ofBe ((frame.take HEADER).drop 33) then
    .ok (putObject ⟨(frame.take 33).drop 1⟩ (frame.drop HEADER))
  else decode frame

end Request

/-! ## Responses -/

inductive Response
  | ok (body : Bytes)
  | err (code : UInt8) (msg : String)
deriving DecidableEq

/-- The payloads of `write_ok` and `write_err`. -/
def Response.encode : Response → Bytes
  | .ok body => ST_OK :: body
  | .err code msg => ST_ERR :: code :: Writer.str msg

def errFields : Reader WireError (UInt8 × String) := do
  let code ← Cur.u8
  let msg ← Cur.str
  pure (code, msg)

/-- The response a frame holds. -/
def Response.decode (frame : Bytes) : Except WireError Response :=
  match frame with
  | [] => .error (.protocol "empty response frame")
  | status :: rest =>
    if status = ST_OK then .ok (.ok rest)
    else if status = ST_ERR then do
      let f ← Cur.whole errFields rest
      .ok (.err f.1 f.2)
    else .error (.protocol s!"bad response status {status}")

/-- The error a code and its message stand for. -/
def wireToErr (code : UInt8) (msg : String) : WireError :=
  if code = EC_NOT_A_REPO then .notARepo
  else if code = EC_NON_FAST_FORWARD then .nonFastForward
  else if code = EC_PROTOCOL then .protocol msg
  else if code = EC_READONLY then .readOnly
  else if code = EC_TOO_LARGE then .packTooLarge msg
  else if code = EC_BUDGET then .connectionBudgetExceeded msg
  else .remote msg

/-- The body of a success, or the error. -/
def Response.result : Response → Except WireError Bytes
  | .ok body => .ok body
  | .err code msg => .error (wireToErr code msg)

def parseResponse (frame : Bytes) : Except WireError Bytes := do
  let r ← Response.decode frame
  r.result

/-! ### Bodies -/

def u32Body (v : UInt32) : Bytes := Writer.u32 v.toNat

def decodeU32Body (b : Bytes) : Except WireError UInt32 := Cur.whole (UInt32.ofNat <$> Cur.u32) b

def strBody (s : String) : Bytes := Writer.str s

def decodeStrBody (b : Bytes) : Except WireError String := Cur.whole Cur.str b

def boolBody (v : Bool) : Bytes := [if v then 1 else 0]

def decodeBoolBody (b : Bytes) : Except WireError Bool := do
  let v ← Cur.whole Cur.u8 b
  if v = 0 then .ok false else if v = 1 then .ok true else .error (.protocol "bad bool")

def idsBody (ids : List ObjectId) : Bytes := Writer.list Writer.id ids

def decodeIdsBody (b : Bytes) : Except WireError (List ObjectId) := Cur.whole Cur.ids b

def decodeIdsBodyCapped (b : Bytes) (max : Nat) : Except WireError (List ObjectId) :=
  match Cur.whole (Cur.idsCapped max) b with
  | .error (.packTooLarge _) =>
    .error (.protocol s!"reply lists more than the {max} id(s) requested")
  | r => r

def refRow (r : String × ObjectId) : Bytes := Writer.str r.1 ++ Writer.id r.2

def refsBody (refs : List (String × ObjectId)) : Bytes := Writer.list refRow refs

def readRefRow : Reader WireError (String × ObjectId) := do
  let branch ← Cur.str
  let id ← Cur.id
  pure (branch, id)

/-- The count is refused when it exceeds the bytes left. -/
def readRefs : Reader WireError (List (String × ObjectId)) := do
  let n ← Cur.u32
  let left ← ByteReader.remaining
  if n > left then throw (.protocol s!"fabricated count {n} exceeds {left} remaining bytes")
  else ByteReader.times n readRefRow

def decodeRefsBody (b : Bytes) : Except WireError (List (String × ObjectId)) := Cur.whole readRefs b

end SrcControl.Wire
