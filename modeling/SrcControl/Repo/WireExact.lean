import SrcControl.Lib.Fallible
import SrcControl.Lib.TextReader
import SrcControl.Repo.Wire

/-!
# One reading for every frame

`decode` accepts exactly the encodings of the requests the format has room for, each as
the request it encodes, and taking a frame apart in place decides every frame alike. The
responses and their bodies read back the same way.
-/

namespace SrcControl.Wire

open ByteReader (Reader Reads Parses)

namespace Cur

theorem u8_reads : Reads u8 (fun _ => True) (fun b => [b]) := Parses.byte _

theorem u32_reads : Reads u32 U32 Writer.u32 := Parses.be _ 4

theorem u64_reads : Reads u64 (fun _ => True) putU64 := by
  refine (Parses.bind (Parses.take _ 8)
    (fun b _ _ => Parses.pure (UInt64.ofNat (ByteReader.ofBe b)))).congr ?_
  intro v x
  constructor
  · rintro ⟨_, b, _, ⟨hl, rfl⟩, ⟨rfl, rfl⟩, rfl⟩
    have hlt : ByteReader.ofBe b < 2 ^ 64 := by
      have := ByteReader.ofBe_lt b
      rwa [hl] at this
    refine ⟨trivial, ?_⟩
    rw [List.append_nil, putU64, UInt64.toNat_ofNat_of_lt' hlt, ← hl, ByteReader.beBytes_ofBe]
  · rintro ⟨-, rfl⟩
    refine ⟨_, _, [], ⟨ByteReader.length_beBytes 8 v.toNat, rfl⟩, ⟨?_, rfl⟩,
      (List.append_nil _).symm⟩
    rw [ByteReader.ofBe_beBytes (UInt64.toNat_lt v), UInt64.ofNat_toNat]

theorem id_reads : Reads id FitsId Writer.id := by
  refine (Parses.bind (Parses.take _ 32) (fun b _ _ => Parses.pure (⟨b⟩ : ObjectId))).congr ?_
  intro i x
  constructor
  · rintro ⟨_, b, _, ⟨hl, rfl⟩, ⟨rfl, rfl⟩, rfl⟩
    exact ⟨hl, List.append_nil b⟩
  · rintro ⟨hi, rfl⟩
    exact ⟨i.bytes, _, [], ⟨hi, rfl⟩, ⟨rfl, rfl⟩, (List.append_nil _).symm⟩

theorem bytes_reads : Reads bytes FitsBytes Writer.bytes := Parses.sized _ u32_reads

theorem str_reads : Reads str FitsStr Writer.str := Parses.text _ bytes_reads

theorem ids_reads : Reads ids (FitsList FitsId) (Writer.list Writer.id) :=
  Parses.listed u32_reads id_reads

theorem strs_reads : Reads strs (FitsList FitsStr) (Writer.list Writer.str) :=
  Parses.listed u32_reads str_reads

theorem idsCapped_reads (max : Nat) : Reads (idsCapped max)
    (fun is => (is.length ≤ max ∧ U32 is.length) ∧ ∀ i ∈ is, FitsId i) (Writer.list Writer.id) :=
  Parses.capped max _ u32_reads id_reads

theorem option_reads {α : Type} {bad : UInt8 → WireError} {read : Reader WireError α}
    {P : α → Prop} {write : α → Bytes} (h : Reads read P write) :
    Reads (option bad read) (fun o => ∀ a, o = some a → P a) (putOption write) := by
  refine (Parses.option bad u8_reads h).congr (fun o x => ?_)
  cases o <;> rfl

/-- A frame is accepted when it is, from end to end, what the reader accepts. -/
theorem whole_eq_ok_iff {α : Type} {m : Reader WireError α} {R : α → Bytes → Prop}
    (h : Parses m R) {payload : Bytes} {a : α} : whole m payload = .ok a ↔ R a payload := by
  have hrun : ∀ r : α × ByteReader.Cursor, m ⟨payload, 0⟩ = .ok r → whole m payload =
      if r.2.pos = r.2.buf.length then .ok r.1
      else .error (.protocol "trailing bytes in frame") := by
    intro r hr
    change (m ⟨payload, 0⟩ >>= _) = _
    rw [hr]
    rfl
  constructor
  · intro hok
    cases hm : m ⟨payload, 0⟩ with
    | error e =>
      change (m ⟨payload, 0⟩ >>= _) = _ at hok
      rw [hm] at hok
      cases hok
    | ok r =>
      obtain ⟨b, c⟩ := r
      obtain ⟨x, rest, hx, hR, rfl⟩ := (h ⟨payload, 0⟩ b c (Nat.zero_le _)).mp hm
      have hpayload : payload = x ++ rest := by simpa [ByteReader.Cursor.rest] using hx
      rw [hrun _ hm] at hok
      split_ifs at hok with hend
      cases hok
      have hrest : rest = [] := by
        have hlen := congrArg List.length hpayload
        simp only [Nat.zero_add, List.length_append] at hend hlen
        exact List.length_eq_zero_iff.mp (by omega)
      rwa [hpayload, hrest, List.append_nil]
  · intro hR
    have hm := (h ⟨payload, 0⟩ a ⟨payload, 0 + payload.length⟩ (Nat.zero_le _)).mpr
      ⟨payload, [], by simp [ByteReader.Cursor.rest], hR, rfl⟩
    rw [hrun _ hm]
    simp

end Cur

namespace Request

/-- The fields the format has room for. -/
def Fits : Request → Prop
  | .hello _ => True
  | .bye => True
  | .listRefs => True
  | .headBranch => True
  | .hasObject id => FitsId id
  | .getObject id => FitsId id
  | .putObject id bytes => FitsId id ∧ FitsBytes bytes
  | .updateRef branch id expectedOld =>
    FitsStr branch ∧ FitsId id ∧ ∀ old, expectedOld = some old → FitsId old
  | .getPack wants haves filter _ =>
    FitsList FitsId wants ∧ FitsList FitsId haves ∧ FitsList FitsStr filter
  | .putPack => True
  | .getObjects ids => ids.length ≤ MAX_GET_OBJECTS_IDS ∧ ∀ id ∈ ids, FitsId id

def opcode : Request → UInt8
  | .hello _ => OP_HELLO
  | .bye => OP_BYE
  | .listRefs => OP_LIST_REFS
  | .headBranch => OP_HEAD_BRANCH
  | .hasObject _ => OP_HAS_OBJECT
  | .getObject _ => OP_GET_OBJECT
  | .putObject _ _ => OP_PUT_OBJECT
  | .updateRef _ _ _ => OP_UPDATE_REF
  | .getPack _ _ _ _ => OP_GET_PACK
  | .putPack => OP_PUT_PACK
  | .getObjects _ => OP_GET_OBJECTS

theorem encode_head (r : Request) : r.encode = r.opcode :: r.encode.tail := by
  cases r <;> rfl

theorem putObjectFields_reads : Reads putObjectFields (fun f => FitsId f.1 ∧ FitsBytes f.2)
    (fun f => Writer.id f.1 ++ Writer.bytes f.2) := by
  refine (Parses.field (C := fun _ => True) Prod.fst Cur.id_reads fun _ _ =>
    Parses.field Prod.snd Cur.bytes_reads fun _ _ => Parses.record ?_).congr ?_
  · rintro ⟨id', bytes'⟩
    simp
  · intro f x
    simp

theorem updateRefFields_reads : Reads updateRefFields
    (fun f => FitsStr f.1 ∧ FitsId f.2.1 ∧ ∀ old, f.2.2 = some old → FitsId old)
    (fun f => Writer.str f.1 ++ (Writer.id f.2.1 ++ putOption Writer.id f.2.2)) := by
  refine (Parses.field (C := fun _ => True) Prod.fst Cur.str_reads fun _ _ =>
    Parses.field (fun f : String × ObjectId × Option ObjectId => f.2.1) Cur.id_reads fun _ _ =>
    Parses.field (fun f : String × ObjectId × Option ObjectId => f.2.2) (Cur.option_reads Cur.id_reads) fun _ _ =>
    Parses.record ?_).congr ?_
  · rintro ⟨branch', id', old'⟩
    simp [and_assoc]
  · intro f x
    simp

abbrev GetPackFields := List ObjectId × List ObjectId × List String × Option UInt64

theorem getPackFields_reads : Reads getPackFields
    (fun f => FitsList FitsId f.1 ∧ FitsList FitsId f.2.1 ∧ FitsList FitsStr f.2.2.1)
    (fun f => Writer.list Writer.id f.1 ++ (Writer.list Writer.id f.2.1 ++
      (Writer.list Writer.str f.2.2.1 ++ putOption putU64 f.2.2.2))) := by
  refine (Parses.field (C := fun _ => True) Prod.fst Cur.ids_reads fun _ _ =>
    Parses.field (fun f : GetPackFields => f.2.1) Cur.ids_reads fun _ _ =>
    Parses.field (fun f : GetPackFields => f.2.2.1) Cur.strs_reads fun _ _ =>
    Parses.field (fun f : GetPackFields => f.2.2.2) (Cur.option_reads Cur.u64_reads) fun _ _ =>
    Parses.record ?_).congr ?_
  · rintro ⟨wants', haves', filter', limit'⟩
    simp [and_assoc]
  · intro f x
    simp

/-- What the body of one opcode accepts. -/
abbrev BodyOf (op : UInt8) (m : Reader WireError Request) : Prop :=
  Parses m (fun r x => r.Fits ∧ op :: x = r.encode)

/-- One opcode: its fields read, and no other request encoded under it. -/
theorem branch {α : Type} {m : Reader WireError α} {P : α → Prop} {write : α → Bytes}
    (make : α → Request) {op : UInt8} (h : Reads m P write)
    (hencode : ∀ a, P a → (make a).encode = op :: write a) (hfits : ∀ a, P a → (make a).Fits)
    (hall : ∀ r : Request, r.Fits → r.opcode = op → ∃ a, P a ∧ make a = r) :
    BodyOf op (make <$> m) := by
  refine (h.map make).congr ?_
  intro r x
  constructor
  · rintro ⟨a, ⟨ha, rfl⟩, rfl⟩
    exact ⟨hfits a ha, (hencode a ha).symm⟩
  · rintro ⟨hr, hx⟩
    have hop : r.opcode = op := by
      rw [encode_head, List.cons.injEq] at hx
      exact hx.1.symm
    obtain ⟨a, ha, rfl⟩ := hall r hr hop
    rw [hencode a ha, List.cons.injEq] at hx
    exact ⟨a, ⟨ha, hx.2⟩, rfl⟩

/-- An opcode that stands alone. -/
theorem branch_alone (r : Request) {op : UInt8} (hencode : r.encode = [op]) (hfits : r.Fits)
    (hall : ∀ r' : Request, r'.opcode = op → r = r') :
    BodyOf op (pure r) := by
  refine (Parses.pure r).congr ?_
  intro r' x
  constructor
  · rintro ⟨rfl, rfl⟩
    exact ⟨hfits, hencode.symm⟩
  · rintro ⟨hr, hx⟩
    have hop : r'.opcode = op := by
      rw [encode_head, List.cons.injEq] at hx
      exact hx.1.symm
    obtain rfl := hall r' hop
    rw [hencode, List.cons.injEq] at hx
    exact ⟨rfl, hx.2⟩

theorem hello_body : BodyOf OP_HELLO ((fun v => hello (UInt32.ofNat v)) <$> Cur.u32) := by
  refine branch _ Cur.u32_reads (fun v hv => ?_) (fun _ _ => trivial) (fun r hr hop => ?_)
  · rw [encode, UInt32.toNat_ofNat_of_lt' hv]
  · cases r with
    | hello version =>
      exact ⟨version.toNat, UInt32.toNat_lt version, by rw [UInt32.ofNat_toNat]⟩
    | _ => exact absurd hop (of_decide_eq_false rfl)

theorem bye_body : BodyOf OP_BYE (pure bye) := by
  refine branch_alone bye rfl trivial (fun r hop => ?_)
  cases r with
  | bye => rfl
  | _ => exact absurd hop (of_decide_eq_false rfl)

theorem listRefs_body : BodyOf OP_LIST_REFS (pure listRefs) := by
  refine branch_alone listRefs rfl trivial (fun r hop => ?_)
  cases r with
  | listRefs => rfl
  | _ => exact absurd hop (of_decide_eq_false rfl)

theorem headBranch_body : BodyOf OP_HEAD_BRANCH (pure headBranch) := by
  refine branch_alone headBranch rfl trivial (fun r hop => ?_)
  cases r with
  | headBranch => rfl
  | _ => exact absurd hop (of_decide_eq_false rfl)

theorem hasObject_body : BodyOf OP_HAS_OBJECT (hasObject <$> Cur.id) := by
  refine branch _ Cur.id_reads (fun _ _ => rfl) (fun _ ha => ha) (fun r hr hop => ?_)
  cases r with
  | hasObject id => exact ⟨id, hr, rfl⟩
  | _ => exact absurd hop (of_decide_eq_false rfl)

theorem getObject_body : BodyOf OP_GET_OBJECT (getObject <$> Cur.id) := by
  refine branch _ Cur.id_reads (fun _ _ => rfl) (fun _ ha => ha) (fun r hr hop => ?_)
  cases r with
  | getObject id => exact ⟨id, hr, rfl⟩
  | _ => exact absurd hop (of_decide_eq_false rfl)

theorem putObject_body : BodyOf OP_PUT_OBJECT ((fun f => putObject f.1 f.2) <$> putObjectFields) := by
  refine branch _ putObjectFields_reads (fun _ _ => rfl) (fun _ ha => ha) (fun r hr hop => ?_)
  cases r with
  | putObject id bytes => exact ⟨(id, bytes), hr, rfl⟩
  | _ => exact absurd hop (of_decide_eq_false rfl)

theorem updateRef_body : BodyOf OP_UPDATE_REF ((fun f => updateRef f.1 f.2.1 f.2.2) <$> updateRefFields) := by
  refine branch _ updateRefFields_reads (fun _ _ => rfl) (fun _ ha => ha) (fun r hr hop => ?_)
  cases r with
  | updateRef branch id expectedOld => exact ⟨(branch, id, expectedOld), hr, rfl⟩
  | _ => exact absurd hop (of_decide_eq_false rfl)

theorem getPack_body : BodyOf OP_GET_PACK ((fun f => getPack f.1 f.2.1 f.2.2.1 f.2.2.2) <$> getPackFields) := by
  refine branch _ getPackFields_reads (fun _ _ => rfl) (fun _ ha => ha) (fun r hr hop => ?_)
  cases r with
  | getPack wants haves filter blobLimit => exact ⟨(wants, haves, filter, blobLimit), hr, rfl⟩
  | _ => exact absurd hop (of_decide_eq_false rfl)

theorem putPack_body : BodyOf OP_PUT_PACK (pure putPack) := by
  refine branch_alone putPack rfl trivial (fun r hop => ?_)
  cases r with
  | putPack => rfl
  | _ => exact absurd hop (of_decide_eq_false rfl)

theorem getObjects_body :
    BodyOf OP_GET_OBJECTS (getObjects <$> Cur.idsCapped MAX_GET_OBJECTS_IDS) := by
  refine branch _ (Cur.idsCapped_reads MAX_GET_OBJECTS_IDS) (fun _ _ => rfl)
    (fun _ ha => ⟨ha.1.1, ha.2⟩) (fun r hr hop => ?_)
  cases r with
  | getObjects ids =>
    have hwide : U32 ids.length := lt_of_le_of_lt hr.1 (by decide)
    exact ⟨ids, ⟨⟨hr.1, hwide⟩, hr.2⟩, rfl⟩
  | _ => exact absurd hop (of_decide_eq_false rfl)

/-- The opcodes there are. -/
theorem opcode_known (r : Request) : r.opcode ∈ [OP_HELLO, OP_BYE, OP_LIST_REFS, OP_HEAD_BRANCH,
    OP_HAS_OBJECT, OP_GET_OBJECT, OP_PUT_OBJECT, OP_UPDATE_REF, OP_GET_PACK, OP_PUT_PACK,
    OP_GET_OBJECTS] := by
  cases r <;> simp [opcode]

theorem ite_body {op c : UInt8} {m m' : Reader WireError Request} (h : op = c → BodyOf op m)
    (h' : op ≠ c → BodyOf op m') : BodyOf op (if op = c then m else m') := by
  by_cases hop : op = c
  · rw [if_pos hop]
    exact h hop
  · rw [if_neg hop]
    exact h' hop

theorem body_parses (op : UInt8) : BodyOf op (body op) := by
  refine ite_body (fun h => h ▸ hello_body) fun h₁ => ?_
  refine ite_body (fun h => h ▸ bye_body) fun h₂ => ?_
  refine ite_body (fun h => h ▸ listRefs_body) fun h₃ => ?_
  refine ite_body (fun h => h ▸ headBranch_body) fun h₄ => ?_
  refine ite_body (fun h => h ▸ hasObject_body) fun h₅ => ?_
  refine ite_body (fun h => h ▸ getObject_body) fun h₆ => ?_
  refine ite_body (fun h => h ▸ putObject_body) fun h₇ => ?_
  refine ite_body (fun h => h ▸ updateRef_body) fun h₈ => ?_
  refine ite_body (fun h => h ▸ getPack_body) fun h₉ => ?_
  refine ite_body (fun h => h ▸ putPack_body) fun h₁₀ => ?_
  refine ite_body (fun h => h ▸ getObjects_body) fun h₁₁ => ?_
  refine (Parses.throw _).congr (fun r x => ⟨False.elim, fun ⟨_, hx⟩ => ?_⟩)
  rw [encode_head, List.cons.injEq] at hx
  have hknown := opcode_known r
  rw [← hx.1] at hknown
  simp only [List.mem_cons, h₁, h₂, h₃, h₄, h₅, h₆, h₇, h₈, h₉, h₁₀, h₁₁, List.not_mem_nil,
    or_self] at hknown

theorem read_parses : Parses read (fun r x => r.Fits ∧ x = r.encode) := by
  refine (Parses.bind Cur.u8_reads (fun op _ _ => body_parses op)).congr ?_
  intro r x
  constructor
  · rintro ⟨op, _, y, ⟨-, rfl⟩, ⟨hr, hy⟩, rfl⟩
    exact ⟨hr, hy⟩
  · rintro ⟨hr, rfl⟩
    refine ⟨r.opcode, [r.opcode], r.encode.tail, ⟨trivial, rfl⟩, ⟨hr, ?_⟩, ?_⟩
    · exact (encode_head r).symm
    · exact encode_head r

/-- A frame is decoded to a request exactly when it is, from end to end, its encoding. -/
theorem decode_eq_ok_iff {frame : Bytes} {r : Request} :
    decode frame = .ok r ↔ r.Fits ∧ frame = r.encode := Cur.whole_eq_ok_iff read_parses

theorem take_cut {i j : Nat} (h : i ≤ j) (frame : Bytes) :
    frame.take j = frame.take i ++ (frame.take j).drop i := by
  conv_lhs => rw [← List.take_append_drop i (frame.take j), List.take_take, Nat.min_eq_left h]

/-- Taking a frame apart in place gives the same request, or the same error. -/
theorem decodeOwned_eq_decode (frame : Bytes) : decodeOwned frame = decode frame := by
  unfold decodeOwned
  split_ifs with h
  · obtain ⟨hlen, hop, hcount⟩ := h
    have hlen : 37 ≤ frame.length := hlen
    have hop : frame.take 1 = [OP_PUT_OBJECT] := by
      cases frame with
      | nil => cases hop
      | cons b rest => rw [List.head?_cons, Option.some.injEq] at hop; rw [hop]; rfl
    have hid : ((frame.take 33).drop 1).length = 32 := by
      rw [List.length_drop, List.length_take]
      omega
    have hwidth : ((frame.take HEADER).drop 33).length = 4 := by
      change ((frame.take 37).drop 33).length = 4
      rw [List.length_drop, List.length_take]
      omega
    have hbody : (frame.drop HEADER).length = ByteReader.ofBe ((frame.take HEADER).drop 33) := by
      rw [List.length_drop]
      exact hcount
    have hframe : frame = OP_PUT_OBJECT :: ((frame.take 33).drop 1 ++
        ((frame.take HEADER).drop 33 ++ frame.drop HEADER)) := by
      conv_lhs => rw [← List.take_append_drop HEADER frame, take_cut (show 33 ≤ HEADER by decide),
        take_cut (show 1 ≤ 33 by decide), hop]
      simp
    have hsize : Writer.u32 (frame.drop HEADER).length = (frame.take HEADER).drop 33 := by
      rw [hbody, Writer.u32, ← hwidth, ByteReader.beBytes_ofBe]
    have hfits : (frame.drop HEADER).length < 256 ^ 4 := by
      have := ByteReader.ofBe_lt ((frame.take HEADER).drop 33)
      rwa [hwidth, ← hbody] at this
    have hrequest : (putObject ⟨(frame.take 33).drop 1⟩ (frame.drop HEADER)).Fits := ⟨hid, hfits⟩
    refine (decode_eq_ok_iff.mpr ⟨hrequest, ?_⟩).symm
    rw [encode, Writer.bytes, hsize]
    exact hframe
  · rfl

end Request

/-! ## Responses -/

/-- The message fits its length field. -/
def Response.Fits : Response → Prop
  | .ok _ => True
  | .err _ msg => FitsStr msg

theorem errFields_parses : Parses errFields
    (fun f x => FitsStr f.2 ∧ x = f.1 :: Writer.str f.2) := by
  refine (Parses.field (C := fun _ => True) Prod.fst Cur.u8_reads fun _ _ =>
    Parses.field Prod.snd Cur.str_reads fun _ _ => Parses.record ?_).congr ?_
  · rintro ⟨code', msg'⟩
    simp
  · intro f x
    simp

theorem Response.decode_eq_ok_iff {frame : Bytes} {r : Response} :
    Response.decode frame = .ok r ↔ r.Fits ∧ frame = r.encode := by
  cases frame with
  | nil =>
    constructor
    · intro h
      cases h
    · rintro ⟨-, h⟩
      cases r <;> cases h
  | cons status rest =>
    unfold Response.decode
    by_cases hok : status = ST_OK
    · simp only [hok, if_true, Except.ok.injEq]
      constructor
      · rintro rfl
        exact ⟨trivial, rfl⟩
      · rintro ⟨-, h⟩
        cases r with
        | ok body => rw [encode, List.cons.injEq] at h; rw [h.2]
        | err code msg =>
          rw [encode, List.cons.injEq] at h
          exact absurd h.1 (of_decide_eq_false rfl)
    · by_cases herr : status = ST_ERR
      · have hrun : ∀ f : UInt8 × String, Cur.whole errFields rest = .ok f ↔
            FitsStr f.2 ∧ rest = f.1 :: Writer.str f.2 := fun f =>
          Cur.whole_eq_ok_iff errFields_parses
        dsimp only
        rw [if_neg hok, if_pos herr]
        constructor
        · intro h
          obtain ⟨f, hf, h⟩ := Fallible.bind_ok h
          cases h
          obtain ⟨hfit, rfl⟩ := (hrun f).mp hf
          exact ⟨hfit, by rw [herr]; rfl⟩
        · rintro ⟨hfit, h⟩
          cases r with
          | ok body =>
            rw [encode, List.cons.injEq] at h
            exact absurd h.1 hok
          | err code msg =>
            rw [encode, List.cons.injEq] at h
            rw [(hrun (code, msg)).mpr ⟨hfit, h.2⟩]
            rfl
      · simp only [hok, herr, if_false, reduceCtorEq, false_iff, not_and]
        intro _ h
        cases r with
        | ok body => rw [encode, List.cons.injEq] at h; exact hok h.1
        | err code msg => rw [encode, List.cons.injEq] at h; exact herr h.1

/-- A response frame gives its body back, or the error its code and message stand for. -/
theorem parseResponse_encode {r : Response} (h : r.Fits) : parseResponse r.encode = r.result := by
  unfold parseResponse
  rw [Response.decode_eq_ok_iff.mpr ⟨h, rfl⟩]
  rfl

/-! ### Bodies -/

theorem decodeU32Body_eq_ok_iff {b : Bytes} {v : UInt32} :
    decodeU32Body b = .ok v ↔ b = u32Body v := by
  refine (Cur.whole_eq_ok_iff (Parses.map Cur.u32_reads UInt32.ofNat)).trans ?_
  constructor
  · rintro ⟨n, ⟨hn, rfl⟩, rfl⟩
    rw [u32Body, UInt32.toNat_ofNat_of_lt' hn]
  · rintro rfl
    exact ⟨v.toNat, ⟨UInt32.toNat_lt v, rfl⟩, UInt32.ofNat_toNat.symm⟩

theorem decodeStrBody_eq_ok_iff {b : Bytes} {s : String} :
    decodeStrBody b = .ok s ↔ FitsStr s ∧ b = strBody s := Cur.whole_eq_ok_iff Cur.str_reads

theorem decodeBoolBody_eq_ok_iff {b : Bytes} {v : Bool} :
    decodeBoolBody b = .ok v ↔ b = boolBody v := by
  have hrun : ∀ t : UInt8, Cur.whole Cur.u8 b = .ok t ↔ b = [t] := fun t =>
    (Cur.whole_eq_ok_iff Cur.u8_reads).trans ⟨fun h => h.2, fun h => ⟨trivial, h⟩⟩
  constructor
  · intro h
    obtain ⟨t, ht, h⟩ := Fallible.bind_ok h
    rw [(hrun t).mp ht]
    split_ifs at h with h₀ h₁
    · cases h; rw [h₀]; rfl
    · cases h; rw [h₁]; rfl
  · rintro rfl
    cases v <;> rfl

theorem decodeIdsBody_eq_ok_iff {b : Bytes} {ids : List ObjectId} :
    decodeIdsBody b = .ok ids ↔ FitsList FitsId ids ∧ b = idsBody ids :=
  Cur.whole_eq_ok_iff Cur.ids_reads

theorem decodeIdsBodyCapped_eq_ok_iff {b : Bytes} {max : Nat} {ids : List ObjectId} :
    decodeIdsBodyCapped b max = .ok ids ↔
      ids.length ≤ max ∧ FitsList FitsId ids ∧ b = idsBody ids := by
  have hrun : Cur.whole (Cur.idsCapped max) b = .ok ids ↔
      ids.length ≤ max ∧ FitsList FitsId ids ∧ b = idsBody ids :=
    (Cur.whole_eq_ok_iff (Cur.idsCapped_reads max)).trans (by simp [FitsList, and_assoc, idsBody])
  rw [← hrun]
  unfold decodeIdsBodyCapped
  split
  · next h => rw [h]; simp
  · exact Iff.rfl

theorem refRow_reads : Reads readRefRow (fun r => FitsStr r.1 ∧ FitsId r.2) refRow := by
  refine (Parses.field (C := fun _ => True) Prod.fst Cur.str_reads fun _ _ =>
    Parses.field Prod.snd Cur.id_reads fun _ _ => Parses.record ?_).congr ?_
  · rintro ⟨branch', id'⟩
    simp
  · intro f x
    simp [refRow]

theorem decodeRefsBody_eq_ok_iff {b : Bytes} {refs : List (String × ObjectId)} :
    decodeRefsBody b = .ok refs ↔
      FitsList (fun r => FitsStr r.1 ∧ FitsId r.2) refs ∧ b = refsBody refs :=
  Cur.whole_eq_ok_iff (Parses.guarded _ Cur.u32_reads refRow_reads (fun _ _ =>
    List.append_ne_nil_of_left_ne_nil (ObjectReader.str_ne_nil _) _))

end SrcControl.Wire
