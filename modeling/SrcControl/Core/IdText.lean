import SrcControl.Core.Object
import SrcControl.Lib.LineText

/-!
# Ids as text

An id is written as the hexadecimal text of its 32 bytes; a drop tombstone names the
transcript it drops in this form.
-/

namespace SrcControl

open LineText

namespace ObjectId

def toHex (id : ObjectId) : List Char := encodeHex id.bytes

/-- `s.parse::<ObjectId>()`. -/
def parse (s : List Char) : Option ObjectId := do
  let bytes ← decodeHex s
  if bytes.length = 32 then some ⟨bytes⟩ else none

theorem parse_toHex {id : ObjectId} (h : id.bytes.length = 32) : parse id.toHex = some id := by
  simp [parse, toHex, decodeHex_encodeHex, h]

end ObjectId

namespace Transcript

def dropAgent : String := "sc-transcript-drop-v1"

/-- The tombstone for transcript `dropped` on `snapshot`. -/
def dropTombstone (snapshot dropped : ObjectId) : Transcript :=
  ⟨snapshot, dropAgent, String.ofList dropped.toHex, [], [], []⟩

/-- The transcript a tombstone drops; `none` for a real transcript. -/
def droppedId (t : Transcript) : Option ObjectId :=
  if t.nonce = [] ∧ t.ciphertext = [] ∧ t.wrappedKeys = [] ∧ t.agent = dropAgent then
    ObjectId.parse t.session.toList
  else none

theorem droppedId_dropTombstone (snapshot : ObjectId) {dropped : ObjectId}
    (h : dropped.bytes.length = 32) : (dropTombstone snapshot dropped).droppedId = some dropped := by
  simp [droppedId, dropTombstone, ObjectId.parse_toHex h]

end Transcript

end SrcControl
