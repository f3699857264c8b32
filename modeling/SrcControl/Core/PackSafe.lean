import SrcControl.Core.ContentAddress
import SrcControl.Core.Pack

/-!
# Reading a pack that is not trusted

The index of another party is read without a fault, and so is a record under a cap: but for an
offset, or a cap, at the top of the 64-bit word.
-/

namespace SrcControl.Pack

open ByteReader (leBytes ofLe)
open Checked (Stop Returns add64 slice)
open Wire (Source readLimited readUpTo)

/-! ## What the decoder gives -/

theorem readLimited_take (limit first : Nat) (s : Source) :
    (readLimited limit first s).1 = s.data.take limit ∧
      (readLimited limit first s).2.data = s.data.drop limit := by
  have h := Wire.readLoop_eq limit first limit [] 0 s (by simp) (by simp) (Nat.zero_le _)
  simpa [readLimited] using h

theorem readDecoder_taken (limit first : Nat) (d : Decoder) :
    (readDecoder limit first d).2 ≤ limit := by
  have hlen : (readLimited limit first d.source).1.length ≤ limit := by
    rw [(readLimited_take limit first d.source).1]
    exact List.length_take_le _ _
  unfold readDecoder
  cases d.fault with
  | none => exact hlen
  | some e =>
    dsimp only
    split_ifs <;> exact hlen

/-- Nothing past the cap but the one byte that shows it is crossed. -/
theorem decompressMax_taken (z : Zstd) (payload : Bytes) (max : Nat) :
    (decompressMax z payload max).2 ≤ max + 1 := by
  unfold decompressMax
  split
  · exact Nat.zero_le _
  · rename_i d _
    split
    · exact Nat.zero_le _
    · rename_i limit hlimit
      have hle : limit ≤ max + 1 := by
        unfold add64 at hlimit
        split_ifs at hlimit
        cases hlimit
        exact le_refl _
      have htaken := readDecoder_taken limit (firstStep payload) d
      cases hread : readDecoder limit (firstStep payload) d with
      | mk r taken =>
        rw [hread] at htaken
        cases r with
        | error e => exact htaken.trans hle
        | ok canonical =>
          dsimp only
          split_ifs <;> exact htaken.trans hle

/-- Only the sum that bounds the read can fault. -/
theorem decompressMax_returns_iff (z : Zstd) (payload : Bytes) (max : Nat) :
    Returns (decompressMax z payload max).1 ↔
      max + 1 < 2 ^ 64 ∨ ∀ d, z.decoder payload ≠ .ok d := by
  unfold decompressMax
  cases hopen : z.decoder payload with
  | error e => exact iff_of_true (Returns.error _) (.inr (by simp))
  | ok d =>
    by_cases hmax : max + 1 < 2 ^ 64
    · refine iff_of_true ?_ (.inl hmax)
      rw [Returns.add64 hmax]
      dsimp only
      cases hread : readDecoder (max + 1) (firstStep payload) d with
      | mk r taken =>
        cases r with
        | error e => exact Returns.error _
        | ok canonical =>
          dsimp only
          split_ifs
          · exact Returns.error _
          · exact Returns.ok _
    · refine iff_of_false ?_ (fun h => h.elim hmax (fun hclosed => hclosed d rfl))
      rw [add64, if_neg hmax]
      intro h
      obtain ⟨e, he⟩ := h _ rfl
      cases he

theorem stopped_returns {α : Type} (x : Except CoreError α) : Returns (stopped x) := by
  cases x with
  | error e => exact Returns.error e
  | ok a => exact Returns.ok a

theorem returns_bind_iff {α β : Type} {x : Except (Stop CoreError) α}
    {f : α → Except (Stop CoreError) β} (hf : ∀ a, Returns (f a)) :
    Returns (x >>= f) ↔ Returns x := by
  constructor
  · intro h st hst
    exact h st (by rw [hst]; rfl)
  · intro h
    exact h.bind (fun a _ => hf a)

/-! ## The record -/

/-- The length word of the record at `offset`. -/
def lengthAt (pack : Bytes) (offset : Nat) : Nat := ofLe ((pack.drop offset).take 4)

/-- The record lies in the pack. -/
structure InPack (pack : Bytes) (offset : Nat) : Prop where
  word : offset + 4 ≤ pack.length
  payload : offset + 4 + lengthAt pack offset ≤ pack.length

def payloadAt (pack : Bytes) (offset : Nat) : Bytes :=
  (pack.drop (offset + 4)).take (lengthAt pack offset)

theorem lengthAt_lt (pack : Bytes) (offset : Nat) : lengthAt pack offset < 2 ^ 32 := by
  have h := ByteReader.ofLe_lt ((pack.drop offset).take 4)
  have hlen : ((pack.drop offset).take 4).length ≤ 4 := List.length_take_le _ _
  have hpow : 256 ^ ((pack.drop offset).take 4).length ≤ 256 ^ 4 :=
    Nat.pow_le_pow_right (by decide) hlen
  unfold lengthAt
  omega

/-- A record in the pack, and within the cap, is found where its length word says. -/
theorem recordBounds_inPack {pack : Bytes} {offset : Nat} {max : Option Nat}
    (hpack : pack.length < 2 ^ 63) (hin : InPack pack offset)
    (hmax : ∀ m, max = some m → lengthAt pack offset ≤ m) :
    recordBounds pack offset max =
      .ok (offset + 4, offset + 4 + lengthAt pack offset) := by
  have hword := hin.word
  have hpayload := hin.payload
  have hslice : (slice pack offset (offset + 4) : Except (Stop CoreError) Bytes) =
      .ok ((pack.drop offset).take 4) := by
    rw [Returns.slice (by omega) hword, Nat.add_sub_cancel_left]
  have hcap : checkCap (lengthAt pack offset) max = .ok () := by
    cases max with
    | none => rfl
    | some m => exact if_neg (Nat.not_lt.mpr (hmax m rfl))
  unfold recordBounds
  rw [Returns.add64 (by omega)]
  change (if offset + 4 > pack.length then _ else _) = _
  rw [if_neg (by omega), hslice]
  change (checkCap (lengthAt pack offset) max >>= fun _ => _) = _
  rw [hcap]
  change (add64 (offset + 4) (lengthAt pack offset) >>= fun _ => _) = _
  rw [Returns.add64 (by omega)]
  exact if_neg (by omega)

theorem payload_slice {pack : Bytes} {offset : Nat} (hin : InPack pack offset) :
    (slice pack (offset + 4) (offset + 4 + lengthAt pack offset) :
      Except (Stop CoreError) Bytes) = .ok (payloadAt pack offset) := by
  rw [Returns.slice (by omega) hin.payload, Nat.add_sub_cancel_left, payloadAt]

/-- Where the bounds are no record's, they are refused with an error. -/
theorem recordBounds_refused {pack : Bytes} {offset max : Nat} (hpack : pack.length < 2 ^ 63)
    (hoffset : offset + 4 < 2 ^ 64) (h : ¬ (InPack pack offset ∧ lengthAt pack offset ≤ max)) :
    ∃ e, recordBounds pack offset (some max) = .error (.error e) := by
  unfold recordBounds
  rw [Returns.add64 hoffset]
  change ∃ e, (if offset + 4 > pack.length then _ else _) = _
  split_ifs with hword
  · exact ⟨_, rfl⟩
  have hslice : (slice pack offset (offset + 4) : Except (Stop CoreError) Bytes) =
      .ok ((pack.drop offset).take 4) := by
    rw [Returns.slice (by omega) (by omega), Nat.add_sub_cancel_left]
  rw [hslice]
  change ∃ e, (checkCap (lengthAt pack offset) (some max) >>= fun _ => _) = _
  by_cases hcap : lengthAt pack offset > max
  · rw [checkCap, if_pos hcap]
    exact ⟨_, rfl⟩
  · rw [checkCap, if_neg hcap]
    have hlen := lengthAt_lt pack offset
    change ∃ e, (add64 (offset + 4) (lengthAt pack offset) >>= fun _ => _) = _
    rw [Returns.add64 (by omega)]
    refine ⟨_, if_pos ?_⟩
    by_contra hin
    exact h ⟨⟨by omega, by omega⟩, by omega⟩

theorem readRecordAt_inPack (z : Zstd) (hash : Bytes → Bytes) {pack : Bytes} {offset : Nat}
    {max : Option Nat} (id : ObjectId) (hpack : pack.length < 2 ^ 63) (hin : InPack pack offset)
    (hmax : ∀ m, max = some m → lengthAt pack offset ≤ m) :
    readRecordAt z hash pack offset id max =
      decompressAndDecode z hash (payloadAt pack offset) id max := by
  rw [readRecordAt, recordBounds_inPack hpack hin hmax]
  dsimp only
  rw [payload_slice hin]

/-- A record under a cap of any width, at any offset. -/
theorem boundedRead_iff (z : Zstd) (hash : Bytes → Bytes) (pack : Bytes) (offset : Nat)
    (id : ObjectId) (cap : Nat) (hpack : pack.length < 2 ^ 63) :
    (Returns (readObjectAtBounded z hash pack offset id cap).1 ∧
        (readObjectAtBounded z hash pack offset id cap).2 ≤ cap + 1) ↔
      offset + 4 < 2 ^ 64 ∧ (cap + 1 < 2 ^ 64 ∨ ¬ (InPack pack offset ∧
        lengthAt pack offset ≤ cap ∧ ∃ d, z.decoder (payloadAt pack offset) = .ok d)) := by
  unfold readObjectAtBounded
  by_cases hoffset : offset + 4 < 2 ^ 64
  · by_cases hin : InPack pack offset ∧ lengthAt pack offset ≤ cap
    · have hcap : ∀ m, some cap = some m → lengthAt pack offset ≤ m := by
        intro m hm
        cases hm
        exact hin.2
      have hread := readRecordAt_inPack z hash id hpack hin.1 hcap
      have hdecode : decompressAndDecode z hash (payloadAt pack offset) id (some cap) =
          ((decompressMax z (payloadAt pack offset) cap).1 >>= fun canonical =>
            stopped (Object.decodeVerified hash
              (.malformed s!"packed object {id.short} failed hash verification") id canonical),
            (decompressMax z (payloadAt pack offset) cap).2) := rfl
      rw [hread, hdecode]
      dsimp only
      rw [returns_bind_iff (fun _ => stopped_returns _), decompressMax_returns_iff]
      have htaken := decompressMax_taken z (payloadAt pack offset) cap
      simp only [htaken, and_true, hoffset, true_and, hin.1, hin.2, not_exists, ne_eq]
    · obtain ⟨e, he⟩ := recordBounds_refused hpack hoffset hin
      have hread : readRecordAt z hash pack offset id (some cap) = (.error (.error e), 0) := by
        rw [readRecordAt, he]
      rw [hread]
      refine iff_of_true ⟨Returns.error e, Nat.zero_le _⟩ ⟨hoffset, .inr ?_⟩
      rintro ⟨h₁, h₂, -⟩
      exact hin ⟨h₁, h₂⟩
  · have hread : readRecordAt z hash pack offset id (some cap) = (.error .overflow, 0) := by
      have hbounds : recordBounds pack offset (some cap) = .error .overflow := by
        unfold recordBounds
        rw [add64, if_neg hoffset]
        rfl
      rw [readRecordAt, hbounds]
    rw [hread]
    refine iff_of_false ?_ (fun h => hoffset h.1)
    rintro ⟨h, -⟩
    obtain ⟨e, he⟩ := h _ rfl
    cases he

/-! ## The index -/

theorem parseRows_returns (idx : Bytes) (prev : Option ObjectId) (i left : Nat)
    (h : 16 + (i + left) * ROW ≤ idx.length) : Returns (parseRows idx prev i left) := by
  induction left generalizing prev i with
  | zero => exact Returns.ok _
  | succ left ih =>
    have hrow : 16 + i * ROW + 48 ≤ idx.length := by
      have : (i + (left + 1)) * ROW = i * ROW + left * ROW + 48 := by
        unfold ROW
        omega
      omega
    have hrest : 16 + (i + 1 + left) * ROW ≤ idx.length := by
      rw [Nat.add_right_comm, Nat.add_assoc]
      exact h
    unfold parseRows
    refine Returns.bind ?_ (fun idBytes _ => ?_)
    · rw [Returns.slice (by omega) (by omega)]
      exact Returns.ok _
    dsimp only
    split_ifs
    · exact Returns.error _
    refine Returns.bind ?_ (fun offset _ => Returns.bind ?_ (fun length _ =>
      Returns.bind (ih _ _ hrest) (fun out _ => Returns.ok _)))
    · rw [Returns.slice (by omega) (by omega)]
      exact Returns.ok _
    · rw [Returns.slice (by omega) (by omega)]
      exact Returns.ok _

theorem parseIndex_returns (idx : Bytes) : Returns (parseIndex idx) := by
  unfold parseIndex
  dsimp only
  split_ifs with hmagic hver hwide hlen
  · exact Returns.error _
  · exact Returns.error _
  · exact Returns.error _
  · exact Returns.error _
  · refine parseRows_returns idx none 0 _ ?_
    rw [not_not.mp hlen, Nat.zero_add, Nat.add_comm]

/-- The index is read without a fault, and so is a record that one of its rows names exactly when
no sum leaves the word: the end of the record's length word and, if the record's frame is opened,
the cap and one. -/
theorem index_read_iff (z : Zstd) (hash : Bytes → Bytes) (idx pack : Bytes) (id : ObjectId)
    (cap : Nat) (hpack : pack.length < 2 ^ 63) :
    Returns (parseIndex idx) ∧ ∀ rows, parseIndex idx = .ok rows → ∀ row ∈ rows,
      ((Returns (readObjectAtBounded z hash pack row.offset id cap).1 ∧
          (readObjectAtBounded z hash pack row.offset id cap).2 ≤ cap + 1) ↔
        row.offset + 4 < 2 ^ 64 ∧ (cap + 1 < 2 ^ 64 ∨ ¬ (InPack pack row.offset ∧
          lengthAt pack row.offset ≤ cap ∧
            ∃ d, z.decoder (payloadAt pack row.offset) = .ok d))) :=
  ⟨parseIndex_returns idx, fun _ _ row _ => boundedRead_iff z hash pack row.offset id cap hpack⟩

/-- A compressor that stores: the frame header and the header of one raw block, then the bytes. -/
def testZstd : Zstd where
  encodeAll := fun b => .ok ([0x28, 0xb5, 0x2f, 0xfd, 0x00, 0x58] ++
    (leBytes 3 (8 * b.length + 1) ++ b))
  decoder := fun c =>
    if c.take 4 = [0x28, 0xb5, 0x2f, 0xfd] then .ok ⟨⟨c.drop 9, fun _ => 0, 0⟩, none⟩
    else .error "Unknown frame descriptor"

/-- One row, whose record would start five bytes before the end of the address space. -/
def topIndex : Bytes :=
  indexBytes [⟨⟨List.replicate 32 0⟩, 2 ^ 64 - 1, 0⟩]

theorem index_read_iff_top :
    (Returns (readObjectAtBounded testZstd Object.testDigest [] (2 ^ 64 - 1)
          ⟨List.replicate 32 0⟩ 256).1 ∧
        (readObjectAtBounded testZstd Object.testDigest [] (2 ^ 64 - 1)
          ⟨List.replicate 32 0⟩ 256).2 ≤ 256 + 1) ↔
      2 ^ 64 - 1 + 4 < 2 ^ 64 ∧ (256 + 1 < 2 ^ 64 ∨ ¬ (InPack [] (2 ^ 64 - 1) ∧
        lengthAt [] (2 ^ 64 - 1) ≤ 256 ∧
          ∃ d, testZstd.decoder (payloadAt [] (2 ^ 64 - 1)) = .ok d)) :=
  (index_read_iff testZstd Object.testDigest topIndex [] ⟨List.replicate 32 0⟩ 256 (by decide)).2
    [⟨⟨List.replicate 32 0⟩, 2 ^ 64 - 1, 0⟩] (by rfl) ⟨⟨List.replicate 32 0⟩, 2 ^ 64 - 1, 0⟩
    (List.mem_singleton.mpr rfl)

/-- An index that is accepted names a record whose read overflows. -/
theorem top_row_overflows :
    parseIndex topIndex = .ok [⟨⟨List.replicate 32 0⟩, 2 ^ 64 - 1, 0⟩] ∧
      (readObjectAtBounded testZstd Object.testDigest [] (2 ^ 64 - 1)
        ⟨List.replicate 32 0⟩ 256).1 = .error .overflow :=
  ⟨rfl, rfl⟩

end SrcControl.Pack
