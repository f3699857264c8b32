import SrcControl.Repo.WireExact

/-!
# Frames and pack streams

A frame is its length and its payload; a pack crosses the wire as chunk frames and an end
frame. Both sides read through sources that hand out as little as one byte at a call, so
every read is a loop. However the calls fall, the loops read the same bytes, and a pack
stream is read up to its end frame and not a byte further.
-/

namespace SrcControl.Wire

/-! ## Sources -/

/-- What a reader has still to hand out, and how: call `i` yields at most `cuts i + 1`
bytes, and at least one while there are any. -/
structure Source where
  data : Bytes
  cuts : Nat → Nat
  calls : Nat

/-- One `read` into a buffer of `n` bytes. -/
def Source.read (n : Nat) (s : Source) : Bytes × Source :=
  let k := min n (s.cuts s.calls + 1)
  (s.data.take k, { s with data := s.data.drop k, calls := s.calls + 1 })

/-- Room for the next call of a buffer that grows: `read_limited` grows by steps, a fixed
buffer is full size from the start. -/
def READ_STEP : Nat := 8 * 1024 * 1024

def nextStep (filled : Nat) : Nat :=
  if filled < READ_STEP then min (max filled (64 * 1024)) READ_STEP else max READ_STEP (filled / 8)

/-- The length the buffer has at the next call. -/
def grown (limit firstStep filled size : Nat) : Nat :=
  if filled = size then
    filled + min (if filled = 0 then min (max firstStep 1) READ_STEP else nextStep filled)
      (limit - filled)
  else size

/-- `while filled < limit`: calls until the limit or the end of the data. -/
def readLoop (limit firstStep : Nat) : Nat → Bytes → Nat → Source → Bytes × Source
  | 0, buf, _, s => (buf, s)
  | fuel + 1, buf, size, s =>
    if buf.length < limit then
      let r := s.read (grown limit firstStep buf.length size - buf.length)
      if r.1 = [] then (buf, r.2)
      else readLoop limit firstStep fuel (buf ++ r.1) (grown limit firstStep buf.length size) r.2
    else (buf, s)

/-- Every call that reads on reads a byte. -/
def readLimited (limit firstStep : Nat) (s : Source) : Bytes × Source :=
  readLoop limit firstStep limit [] 0 s

/-- `read_up_to` a buffer of `n` bytes. -/
def readUpTo (n : Nat) (s : Source) : Bytes × Source := readLoop n n n [] n s

/-! ## Frames -/

/-- Room a frame has beyond the object it carries. -/
def FRAME_OVERHEAD : Nat := 64

def MIN_MAX_OBJECT_SIZE : Nat := 2 * 1024 * 1024
def MAX_MAX_OBJECT_SIZE : Nat := 1024 * 1024 * 1024

/-- `write_frame`: the bytes it puts out. -/
def frameBytes (payload : Bytes) : Except WireError Bytes :=
  if payload.length < 2 ^ 32 then .ok (Writer.u32 payload.length ++ payload)
  else .error (.protocol s!"frame too large: {payload.length} bytes")

/-- `read_frame_max`: `none` at a clean end of the data. -/
def readFrame (max : Nat) (s : Source) : Except WireError (Option Bytes × Source) :=
  let header := readUpTo 4 s
  if header.1 = [] then .ok (none, header.2)
  else if header.1.length < 4 then .error (.protocol "EOF inside frame header")
  else
    let len := ByteReader.ofBe header.1
    if len > max + FRAME_OVERHEAD then
      .error (.protocol (s!"frame length {len} exceeds the {max}-byte object size limit " ++
        "plus framing"))
    else
      let body := readLimited len len header.2
      if body.1.length < len then
        .error (.protocol s!"read inside {len}-byte frame body failed")
      else .ok (some body.1, body.2)

/-! ## Pack streams -/

def ST_PACK_CHUNK : UInt8 := 0x20
def ST_PACK_END : UInt8 := 0x21

/-- 1 MiB. -/
def CHUNK_SIZE : Nat := 1024 * 1024

/-- The chunk size of a setting: the default when it is unset, unreadable or zero, and never
more than the smallest valid receiver accepts. -/
def chunkFrom (value : Option Nat) : Nat :=
  min ((value.filter (0 < ·)).getD CHUNK_SIZE) (MIN_MAX_OBJECT_SIZE - 1)

/-- The rounds of `write_pack_stream`: every one but the last takes a byte off the source. -/
def writeChunks (chunkSize : Nat) : Nat → Source → Except WireError Bytes
  | 0, _ => .error (.other "out of rounds")
  | fuel + 1, src =>
    let chunk := readUpTo chunkSize src
    if chunk.1 = [] then frameBytes [ST_PACK_END]
    else do
      let frame ← frameBytes (ST_PACK_CHUNK :: chunk.1)
      let rest ← writeChunks chunkSize fuel chunk.2
      .ok (frame ++ rest)

/-- `write_pack_stream`: the frames it writes for what `src` hands out. -/
def writePackStream (chunkSize : Nat) (src : Source) : Except WireError Bytes :=
  writeChunks chunkSize (src.data.length + 1) src

/-- The rounds of `read_pack_stream`: every one takes a frame off the source. -/
def readChunks (max maxBytes : Nat) :
    Nat → Bytes → Source → Except WireError ((Bytes × Nat) × Source)
  | 0, _, _ => .error (.other "out of rounds")
  | fuel + 1, sink, s => do
    let r ← readFrame max s
    match r.1 with
    | none => .error (.protocol "EOF before ST_PACK_END")
    | some [] => .error (.protocol "unexpected frame in pack stream")
    | some (tag :: rest) =>
      if tag = ST_PACK_CHUNK then
        if maxBytes ≠ 0 ∧ sink.length + rest.length > maxBytes then
          .error (.packTooLarge s!"server cap is {maxBytes} bytes")
        else readChunks max maxBytes fuel (sink ++ rest) r.2
      else if tag = ST_PACK_END ∧ rest = [] then .ok ((sink, sink.length), r.2)
      else .error (.protocol "unexpected frame in pack stream")

/-- `read_pack_stream`: what was written to the sink, its length and what is left unread. -/
def readPackStream (max maxBytes : Nat) (s : Source) :
    Except WireError ((Bytes × Nat) × Source) :=
  readChunks max maxBytes (s.data.length + 1) [] s

/-! ## Loops read what there is -/

theorem nextStep_pos (filled : Nat) : 0 < nextStep filled := by
  unfold nextStep READ_STEP
  split_ifs <;> omega

/-- The buffer has room for a byte, and none past the limit. -/
theorem grown_bounds (firstStep : Nat) {limit filled size : Nat} (hlt : filled < limit)
    (hsize : filled ≤ size) (hlimit : size ≤ limit) :
    filled < grown limit firstStep filled size ∧ grown limit firstStep filled size ≤ limit := by
  have hstep := nextStep_pos filled
  unfold grown
  split_ifs with hfull hzero
  · unfold READ_STEP
    omega
  · omega
  · omega

theorem readLoop_eq (limit firstStep fuel : Nat) (buf : Bytes) (size : Nat) (s : Source)
    (hfuel : limit ≤ buf.length + fuel) (hsize : buf.length ≤ size) (hlimit : size ≤ limit) :
    (readLoop limit firstStep fuel buf size s).1 = buf ++ s.data.take (limit - buf.length) ∧
      (readLoop limit firstStep fuel buf size s).2.data = s.data.drop (limit - buf.length) := by
  induction fuel generalizing buf size s with
  | zero =>
    have hzero : limit - buf.length = 0 := by omega
    simp [readLoop, hzero]
  | succ fuel ih =>
    unfold readLoop
    by_cases hlt : buf.length < limit
    · obtain ⟨hroom, hwithin⟩ := grown_bounds firstStep hlt hsize hlimit
      rw [if_pos hlt]
      generalize hask : grown limit firstStep buf.length size = size' at hroom hwithin ⊢
      have hread : s.read (size' - buf.length) =
          (s.data.take (min (size' - buf.length) (s.cuts s.calls + 1)),
            ⟨s.data.drop (min (size' - buf.length) (s.cuts s.calls + 1)), s.cuts, s.calls + 1⟩) := rfl
      generalize hk : min (size' - buf.length) (s.cuts s.calls + 1) = k at hread
      have hpos : 0 < k := by omega
      have hle : k ≤ size' - buf.length := by omega
      rw [hread]
      dsimp only
      by_cases hend : s.data.take k = []
      · have hdata : s.data = [] := by
          rcases List.take_eq_nil_iff.mp hend with h | h
          · omega
          · exact h
        simp [hdata]
      · rw [if_neg hend]
        have hgot : 0 < (s.data.take k).length := List.length_pos_iff.mpr hend
        have hlen : (s.data.take k).length = min k s.data.length := List.length_take
        have hnext := ih (buf ++ s.data.take k) size' ⟨s.data.drop k, s.cuts, s.calls + 1⟩
          (by rw [List.length_append]; omega) (by rw [List.length_append]; omega) hwithin
        rw [hnext.1, hnext.2, List.append_assoc, List.length_append, hlen]
        by_cases hshort : s.data.length ≤ k
        · -- The data ended within this call.
          have hall : s.data.length ≤ limit - buf.length := by omega
          simp [List.take_of_length_le hshort, List.drop_eq_nil_of_le hshort,
            List.take_of_length_le hall, List.drop_eq_nil_of_le hall]
        · have hsplit : limit - buf.length = k + (limit - (buf.length + k)) := by omega
          rw [Nat.min_eq_left (by omega), hsplit, List.take_add, List.drop_drop]
          simp
    · have hzero : limit - buf.length = 0 := by omega
      simp [hlt, hzero]

theorem readUpTo_eq (n : Nat) (s : Source) :
    (readUpTo n s).1 = s.data.take n ∧ (readUpTo n s).2.data = s.data.drop n := by
  have h := readLoop_eq n n n [] n s (by simp) (by simp) (le_refl n)
  simpa [readUpTo] using h

theorem readLimited_eq (n : Nat) (s : Source) :
    (readLimited n n s).1 = s.data.take n ∧ (readLimited n n s).2.data = s.data.drop n := by
  have h := readLoop_eq n n n [] 0 s (by simp) (by simp) (Nat.zero_le n)
  simpa [readLimited] using h

/-! ## One frame -/

/-- However the calls fall, a frame the receiver accepts is read whole, and no byte more. -/
theorem readFrame_frame {max : Nat} (payload : Bytes) {rest : Bytes} {s : Source}
    (hmax : payload.length ≤ max + FRAME_OVERHEAD) (hwide : payload.length < 2 ^ 32)
    (hs : s.data = Writer.u32 payload.length ++ (payload ++ rest)) :
    ∃ s', readFrame max s = .ok (some payload, s') ∧ s'.data = rest := by
  have hwidth : (Writer.u32 payload.length).length = 4 := ByteReader.length_beBytes 4 _
  obtain ⟨hheader, hbehind⟩ := readUpTo_eq 4 s
  rw [hs, ← hwidth, List.take_left] at hheader
  rw [hs, ← hwidth, List.drop_left] at hbehind
  rw [hwidth] at hheader hbehind
  obtain ⟨hbody, hleft⟩ := readLimited_eq payload.length (readUpTo 4 s).2
  rw [hbehind, List.take_left] at hbody
  rw [hbehind, List.drop_left] at hleft
  have hlen : ByteReader.ofBe (Writer.u32 payload.length) = payload.length :=
    ByteReader.ofBe_beBytes hwide
  have hne : Writer.u32 payload.length ≠ [] := by
    intro h
    rw [h] at hwidth
    cases hwidth
  refine ⟨(readLimited payload.length payload.length (readUpTo 4 s).2).2, ?_, hleft⟩
  unfold readFrame
  simp only [hheader, hne, hwidth, hlen, if_false, Nat.lt_irrefl, Nat.not_lt.mpr hmax, hbody]

theorem frameBytes_eq {payload : Bytes} (h : payload.length < 2 ^ 32) :
    frameBytes payload = .ok (Writer.u32 payload.length ++ payload) := if_pos h

/-! ## The whole stream -/

/-- A chunk frame is taken in, and reading goes on behind it. -/
theorem readChunks_chunk {max maxBytes : Nat} (fuel : Nat) {sink chunk rest : Bytes} {s : Source}
    (hmax : chunk.length + 1 ≤ max + FRAME_OVERHEAD) (hwide : chunk.length + 1 < 2 ^ 32)
    (hcap : maxBytes = 0 ∨ sink.length + chunk.length ≤ maxBytes)
    (hs : s.data = Writer.u32 (chunk.length + 1) ++ (ST_PACK_CHUNK :: chunk ++ rest)) :
    ∃ s', s'.data = rest ∧ readChunks max maxBytes (fuel + 1) sink s =
      readChunks max maxBytes fuel (sink ++ chunk) s' := by
  obtain ⟨s', hread, hrest⟩ := readFrame_frame (ST_PACK_CHUNK :: chunk) hmax hwide hs
  have hfits : ¬ (maxBytes ≠ 0 ∧ sink.length + chunk.length > maxBytes) := by
    rintro ⟨hne, hlt⟩
    rcases hcap with hzero | hle
    · exact hne hzero
    · omega
  have hround : readChunks max maxBytes (fuel + 1) sink s =
      if maxBytes ≠ 0 ∧ sink.length + chunk.length > maxBytes then
        .error (.packTooLarge s!"server cap is {maxBytes} bytes")
      else readChunks max maxBytes fuel (sink ++ chunk) s' := by
    rw [readChunks, hread]
    rfl
  exact ⟨s', hrest, hround.trans (if_neg hfits)⟩

/-- The end frame ends the stream, and nothing behind it is touched. -/
theorem readChunks_end (max maxBytes fuel : Nat) (sink : Bytes) {rest : Bytes} {s : Source}
    (hs : s.data = Writer.u32 1 ++ ([ST_PACK_END] ++ rest)) :
    ∃ s', s'.data = rest ∧
      readChunks max maxBytes (fuel + 1) sink s = .ok ((sink, sink.length), s') := by
  have hmax : [ST_PACK_END].length ≤ max + FRAME_OVERHEAD := by
    change 1 ≤ max + 64
    omega
  obtain ⟨s', hread, hrest⟩ := readFrame_frame [ST_PACK_END] hmax (by decide) hs
  refine ⟨s', hrest, ?_⟩
  rw [readChunks, hread]
  rfl

theorem writeChunks_read {chunkSize max : Nat} (hpos : 0 < chunkSize)
    (hmax : chunkSize + 1 ≤ max + FRAME_OVERHEAD) (hwide : chunkSize + 1 < 2 ^ 32) (fuel : Nat)
    (src : Source) (hfuel : src.data.length < fuel) :
    ∃ out, writeChunks chunkSize fuel src = .ok out ∧
      ∀ (maxBytes rounds : Nat) (sink rest : Bytes) (s : Source), s.data = out ++ rest →
        out.length ≤ rounds → (maxBytes = 0 ∨ sink.length + src.data.length ≤ maxBytes) →
        ∃ s', s'.data = rest ∧ readChunks max maxBytes rounds sink s =
          .ok ((sink ++ src.data, (sink ++ src.data).length), s') := by
  induction fuel generalizing src with
  | zero => exact absurd hfuel (Nat.not_lt_zero _)
  | succ fuel ih =>
    obtain ⟨hchunk, hnext⟩ := readUpTo_eq chunkSize src
    unfold writeChunks
    by_cases hend : src.data.take chunkSize = []
    · have hdata : src.data = [] := by
        rcases List.take_eq_nil_iff.mp hend with h | h
        · omega
        · exact h
      have hframe : frameBytes [ST_PACK_END] = .ok (Writer.u32 1 ++ [ST_PACK_END]) := rfl
      refine ⟨Writer.u32 1 ++ [ST_PACK_END], by simp only [hchunk, hend, if_true, hframe], ?_⟩
      intro maxBytes rounds sink rest s hs hrounds _
      obtain ⟨rounds, rfl⟩ : ∃ n, rounds = n + 1 := by
        refine ⟨rounds - 1, ?_⟩
        rw [List.length_append, List.length_singleton] at hrounds
        omega
      rw [List.append_assoc] at hs
      obtain ⟨s', hrest, hread⟩ := readChunks_end max maxBytes rounds sink hs
      exact ⟨s', hrest, by rw [hread, hdata, List.append_nil]⟩
    · have hlen : (src.data.take chunkSize).length ≤ chunkSize := List.length_take_le _ _
      have hgot : 0 < (src.data.take chunkSize).length := List.length_pos_iff.mpr hend
      have hsum : src.data.take chunkSize ++ src.data.drop chunkSize = src.data :=
        List.take_append_drop _ _
      have hcount := congrArg List.length hsum
      rw [List.length_append] at hcount
      obtain ⟨out, hout, hread⟩ := ih (readUpTo chunkSize src).2 (by rw [hnext]; omega)
      have hframe : frameBytes (ST_PACK_CHUNK :: src.data.take chunkSize) =
          .ok (Writer.u32 ((src.data.take chunkSize).length + 1) ++
            (ST_PACK_CHUNK :: src.data.take chunkSize)) :=
        frameBytes_eq (by rw [List.length_cons]; omega)
      refine ⟨Writer.u32 ((src.data.take chunkSize).length + 1) ++
        (ST_PACK_CHUNK :: src.data.take chunkSize) ++ out, ?_, ?_⟩
      · simp only [hchunk, hend, if_false, hframe, hout]
        rfl
      intro maxBytes rounds sink rest s hs hrounds hcap
      obtain ⟨rounds, rfl⟩ : ∃ n, rounds = n + 1 := by
        refine ⟨rounds - 1, ?_⟩
        simp only [List.length_append, List.length_cons] at hrounds
        omega
      have hs' : s.data = Writer.u32 ((src.data.take chunkSize).length + 1) ++
          (ST_PACK_CHUNK :: src.data.take chunkSize ++ (out ++ rest)) := by
        rw [hs]
        simp [List.append_assoc]
      have hcap' : maxBytes = 0 ∨ sink.length + (src.data.take chunkSize).length ≤ maxBytes := by
        omega
      have hfits : (src.data.take chunkSize).length + 1 ≤ max + FRAME_OVERHEAD := by omega
      obtain ⟨s₁, hs₁, hstep⟩ := readChunks_chunk rounds hfits (by omega) hcap' hs'
      obtain ⟨s', hrest, hrun⟩ := hread maxBytes rounds (sink ++ src.data.take chunkSize) rest s₁ hs₁
        (by simp only [List.length_append, List.length_cons] at hrounds; omega)
        (by rw [hnext, List.length_append]; omega)
      refine ⟨s', hrest, ?_⟩
      rw [hstep, hrun, hnext, List.append_assoc, hsum]

/-- Chunks of at least one byte whose frames the receiver accepts. -/
structure ChunksFit (chunkSize max : Nat) : Prop where
  pos : 0 < chunkSize
  frame : chunkSize + 1 ≤ max + FRAME_OVERHEAD
  width : chunkSize + 1 < 2 ^ 32

/-- The chunk size a process uses fits every receiver. -/
theorem chunkFrom_fits (value : Option Nat) {max : Nat} (hmax : MIN_MAX_OBJECT_SIZE ≤ max) :
    ChunksFit (chunkFrom value) max := by
  have hchosen : 0 < (value.filter (0 < ·)).getD CHUNK_SIZE := by
    cases value with
    | none => decide
    | some n =>
      by_cases hn : 0 < n
      · simp [Option.filter, hn]
      · simp [Option.filter, hn, CHUNK_SIZE]
  unfold MIN_MAX_OBJECT_SIZE at hmax
  constructor <;> unfold chunkFrom MIN_MAX_OBJECT_SIZE
  · omega
  · unfold FRAME_OVERHEAD
    omega
  · omega

/-- What was written is read back to the byte, however either side's calls fall. -/
theorem packStream_read {chunkSize max : Nat} (hfit : ChunksFit chunkSize max) (src : Source) :
    ∃ out, writePackStream chunkSize src = .ok out ∧
      ∀ (maxBytes : Nat) (rest : Bytes) (s : Source), s.data = out ++ rest →
        (maxBytes = 0 ∨ src.data.length ≤ maxBytes) →
        ∃ s', s'.data = rest ∧
          readPackStream max maxBytes s = .ok ((src.data, src.data.length), s') := by
  obtain ⟨out, hout, hread⟩ := writeChunks_read hfit.pos hfit.frame hfit.width
    (src.data.length + 1) src (Nat.lt_succ_self _)
  refine ⟨out, hout, fun maxBytes rest s hs hcap => ?_⟩
  have hrounds : out.length ≤ s.data.length + 1 := by
    rw [hs, List.length_append]
    omega
  exact hread maxBytes _ [] rest s hs hrounds (by simpa using hcap)

/-! ## The protocol as a whole -/

/-- Every body reads back, and no other bytes are taken for it. -/
structure BodiesExact : Prop where
  u32 : ∀ b v, decodeU32Body b = .ok v ↔ b = u32Body v
  str : ∀ b s, decodeStrBody b = .ok s ↔ FitsStr s ∧ b = strBody s
  bool : ∀ b v, decodeBoolBody b = .ok v ↔ b = boolBody v
  ids : ∀ b is, decodeIdsBody b = .ok is ↔ FitsList FitsId is ∧ b = idsBody is
  idsCapped : ∀ b max is, decodeIdsBodyCapped b max = .ok is ↔
    is.length ≤ max ∧ FitsList FitsId is ∧ b = idsBody is
  refs : ∀ b rs, decodeRefsBody b = .ok rs ↔
    FitsList (fun r => FitsStr r.1 ∧ FitsId r.2) rs ∧ b = refsBody rs

/-- Each frame has one reading, the two request decoders agree on every frame, and a pack
stream is read to its end and not beyond. -/
structure Unambiguous (chunkSize max : Nat) : Prop where
  requests : ∀ frame r, Request.decode frame = .ok r ↔ r.Fits ∧ frame = r.encode
  owned : ∀ frame, Request.decodeOwned frame = Request.decode frame
  responses : ∀ frame r, Response.decode frame = .ok r ↔ r.Fits ∧ frame = r.encode
  answers : ∀ r : Response, r.Fits → parseResponse r.encode = r.result
  bodies : BodiesExact
  packs : ∀ src : Source, ∃ out, writePackStream chunkSize src = .ok out ∧
    ∀ (maxBytes : Nat) (rest : Bytes) (s : Source), s.data = out ++ rest →
      (maxBytes = 0 ∨ src.data.length ≤ maxBytes) →
      ∃ s', s'.data = rest ∧
        readPackStream max maxBytes s = .ok ((src.data, src.data.length), s')

theorem wire_unambiguous {chunkSize max : Nat} (hfit : ChunksFit chunkSize max) :
    Unambiguous chunkSize max where
  requests _ _ := Request.decode_eq_ok_iff
  owned := Request.decodeOwned_eq_decode
  responses _ _ := Response.decode_eq_ok_iff
  answers _ := parseResponse_encode
  bodies := ⟨fun _ _ => decodeU32Body_eq_ok_iff, fun _ _ => decodeStrBody_eq_ok_iff,
    fun _ _ => decodeBoolBody_eq_ok_iff, fun _ _ => decodeIdsBody_eq_ok_iff,
    fun _ _ _ => decodeIdsBodyCapped_eq_ok_iff, fun _ _ => decodeRefsBody_eq_ok_iff⟩
  packs := packStream_read hfit

theorem wire_unambiguous_default : Unambiguous (chunkFrom none) MIN_MAX_OBJECT_SIZE :=
  wire_unambiguous (chunkFrom_fits none (le_refl _))

end SrcControl.Wire
