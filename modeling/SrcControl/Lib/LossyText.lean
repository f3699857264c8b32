import Mathlib.Data.List.Basic
import Mathlib.Tactic.Common

/-!
# Reading bytes as text, whatever they are

The text of a byte string in which every maximal run of bytes that starts no character counts as
one replacement character. Bytes that are the encoding of a text read as that text.
-/

namespace SrcControl.LossyText

/-- The UTF-8 bytes of a text. -/
def encode (s : List Char) : List UInt8 := s.flatMap String.utf8EncodeChar

@[simp] theorem encode_nil : encode [] = [] := rfl

@[simp] theorem encode_cons (c : Char) (s : List Char) :
    encode (c :: s) = String.utf8EncodeChar c ++ encode s := rfl

@[simp] theorem encode_append (s t : List Char) : encode (s ++ t) = encode s ++ encode t :=
  List.flatMap_append

/-- The character that the bytes begin with. -/
def firstChar (bs : List UInt8) : Option Char := ByteArray.utf8DecodeChar? bs.toByteArray 0

theorem firstChar_encodeChar (c : Char) (rest : List UInt8) :
    firstChar (String.utf8EncodeChar c ++ rest) = some c := by
  rw [firstChar, List.toByteArray_append, ByteArray.utf8DecodeChar?_utf8EncodeChar_append]

def isContinuation (b : UInt8) : Bool := 0x80 ≤ b && b ≤ 0xbf

/-- The second byte of a character that takes more than one. -/
def isSecond (lead b : UInt8) : Bool :=
  if lead = 0xe0 then 0xa0 ≤ b && b ≤ 0xbf
  else if lead = 0xed then 0x80 ≤ b && b ≤ 0x9f
  else if lead = 0xf0 then 0x90 ≤ b && b ≤ 0xbf
  else if lead = 0xf4 then 0x80 ≤ b && b ≤ 0x8f
  else 0xc2 ≤ lead && lead ≤ 0xf4 && isContinuation b

/-- How many bytes one replacement character stands for, where no character begins. -/
def badLength : List UInt8 → Nat
  | lead :: second :: rest =>
    if !isSecond lead second || lead < 0xe0 then 1
    else if lead < 0xf0 then 2
    else match rest with
      | third :: _ => if isContinuation third then 3 else 2
      | [] => 2
  | _ => 1

def decodeFrom : Nat → List UInt8 → List Char
  | 0, _ => []
  | _ + 1, [] => []
  | fuel + 1, bs =>
    match firstChar bs with
    | some c => c :: decodeFrom fuel (bs.drop c.utf8Size)
    | none => '\uFFFD' :: decodeFrom fuel (bs.drop (badLength bs))

/-- `from_utf8_lossy`. -/
def decode (bs : List UInt8) : List Char := decodeFrom bs.length bs

theorem length_encodeChar (c : Char) : (String.utf8EncodeChar c).length = c.utf8Size :=
  String.length_utf8EncodeChar c

theorem decodeFrom_encode (s : List Char) {fuel : Nat} (h : s.length ≤ fuel) :
    decodeFrom fuel (encode s) = s := by
  induction s generalizing fuel with
  | nil => cases fuel <;> rfl
  | cons c s ih =>
    obtain ⟨fuel, rfl⟩ := Nat.exists_eq_add_of_le' (Nat.one_le_of_lt h)
    have hne : encode (c :: s) ≠ [] := by
      have := Char.utf8Size_pos c
      rw [← length_encodeChar] at this
      simp [List.ne_nil_of_length_pos this]
    have hdrop : (encode (c :: s)).drop c.utf8Size = encode s := by
      rw [encode_cons, ← length_encodeChar, List.drop_left]
    have hfirst : firstChar (encode (c :: s)) = some c := firstChar_encodeChar c (encode s)
    have hrun : decodeFrom (fuel + 1) (encode (c :: s)) =
        c :: decodeFrom fuel ((encode (c :: s)).drop c.utf8Size) := by
      rw [decodeFrom.eq_3 _ _ hne, hfirst]
    rw [hrun, hdrop, ih (Nat.le_of_succ_le_succ h)]

theorem length_le_encode (s : List Char) : s.length ≤ (encode s).length := by
  induction s with
  | nil => simp
  | cons c s ih =>
    have := Char.utf8Size_pos c
    rw [encode_cons, List.length_append, length_encodeChar, List.length_cons]
    omega

theorem decode_utf8 (s : List Char) : decode (encode s) = s :=
  decodeFrom_encode s (length_le_encode s)

/-- A byte below 128 is a character of its own. -/
theorem char_of_ascii {c : Char} {b : UInt8} (h : b ∈ String.utf8EncodeChar c)
    (hb : b.toNat < 128) : c.toNat = b.toNat := by
  unfold String.utf8EncodeChar at h
  dsimp only at h
  split_ifs at h <;> simp only [List.mem_cons, List.not_mem_nil, or_false] at h
  · subst h
    rw [UInt8.toNat_ofNat'] at hb ⊢
    change c.val.toNat = _
    omega
  · rcases h with h | h <;> subst h <;> rw [UInt8.toNat_ofNat'] at hb <;> omega
  · rcases h with h | h | h <;> subst h <;> rw [UInt8.toNat_ofNat'] at hb <;> omega
  · rcases h with h | h | h | h <;> subst h <;> rw [UInt8.toNat_ofNat'] at hb <;> omega

theorem not_mem_encode {s : List Char} {c : Char} (hc : c.toNat < 128) (h : c ∉ s) :
    UInt8.ofNat c.toNat ∉ encode s := by
  intro hb
  obtain ⟨x, hx, hb⟩ := List.mem_flatMap.mp hb
  have hnat : (UInt8.ofNat c.toNat).toNat = c.toNat := by
    rw [UInt8.toNat_ofNat']
    omega
  have heq := char_of_ascii hb (by omega)
  rw [hnat] at heq
  exact h (Char.toNat_inj.mp heq ▸ hx)

example : decode [0x61, 0xff, 0x62] = ['a', '\uFFFD', 'b'] := by decide

end SrcControl.LossyText
