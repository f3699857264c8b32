import SrcControl.Core.PackSafe

/-!
# Packs are read back

Two writers keep the offsets, and two readers take the records apart: both writers lay out the
same pack, its index lists every record where it stands, and both readers give every object back.
-/

namespace SrcControl.Pack

open ByteReader (leBytes ofLe)
open Checked (Stop Returns add64 slice)
open Wire (Source readLimited readUpTo)

/-! ## Lists in step -/

section Pairs

variable {α β : Type} {R S : α → β → Prop} {as : List α} {bs : List β}

theorem exists_of_forall₂_left (h : List.Forall₂ R as bs) {a : α} (ha : a ∈ as) : ∃ b, R a b := by
  induction h with
  | nil => cases ha
  | cons hab _ ih =>
    rcases List.mem_cons.mp ha with rfl | ha
    · exact ⟨_, hab⟩
    · exact ih ha

theorem forall₂_imp_left (h : List.Forall₂ R as bs) (hi : ∀ a ∈ as, ∀ b, R a b → S a b) :
    List.Forall₂ S as bs := by
  induction h with
  | nil => exact .nil
  | cons hab _ ih =>
    exact .cons (hi _ List.mem_cons_self _ hab)
      (ih (fun a ha b hb => hi a (List.mem_cons_of_mem _ ha) b hb))

end Pairs

/-! ## The layout -/

/-- An object on its way into a pack. -/
structure Packed where
  id : ObjectId
  canonical : Bytes
  compressed : Bytes

namespace Packed

def object (r : Packed) : ObjectId × Bytes := (r.id, r.canonical)

def bytes (r : Packed) : Bytes := r.id.bytes ++ (leBytes 4 r.compressed.length ++ r.compressed)

/-- The record as the writers make it. -/
structure Fits (z : Zstd) (r : Packed) : Prop where
  compressed : z.encodeAll r.canonical = .ok r.compressed
  width : r.id.bytes.length = 32
  short : r.compressed.length < 2 ^ 32

theorem Fits.length_bytes {z : Zstd} {r : Packed} (h : r.Fits z) :
    r.bytes.length = 36 + r.compressed.length := by
  rw [bytes, List.length_append, List.length_append, h.width, ByteReader.length_leBytes]
  omega

end Packed

def recordsBytes (rs : List Packed) : Bytes := rs.flatMap Packed.bytes

/-- The rows of records that start at `pos`. -/
def rowsFrom (pos : Nat) : List Packed → List IndexEntry
  | [] => []
  | r :: rs => ⟨r.id, pos + 32, r.compressed.length⟩ :: rowsFrom (pos + r.bytes.length) rs

theorem rowsFrom_ids (pos : Nat) (rs : List Packed) :
    (rowsFrom pos rs).map (·.id) = rs.map (·.id) := by
  induction rs generalizing pos with
  | nil => rfl
  | cons r rs ih => rw [rowsFrom, List.map_cons, List.map_cons, ih]

theorem length_rowsFrom (pos : Nat) (rs : List Packed) : (rowsFrom pos rs).length = rs.length := by
  have h := congrArg List.length (rowsFrom_ids pos rs)
  simpa using h

/-- Where a row's record stands. -/
theorem mem_rowsFrom {pos : Nat} {rs : List Packed} {e : IndexEntry} (h : e ∈ rowsFrom pos rs) :
    ∃ before r after, rs = before ++ r :: after ∧
      e = ⟨r.id, pos + (recordsBytes before).length + 32, r.compressed.length⟩ := by
  induction rs generalizing pos with
  | nil => cases h
  | cons r rs ih =>
    rw [rowsFrom] at h
    rcases List.mem_cons.mp h with rfl | h
    · exact ⟨[], r, rs, rfl, rfl⟩
    · obtain ⟨before, r', after, rfl, rfl⟩ := ih h
      refine ⟨r :: before, r', after, rfl, ?_⟩
      simp only [recordsBytes, List.flatMap_cons, List.length_append, Nat.add_assoc]

/-! ## The writers -/

theorem addRecords_eq {z : Zstd} {rs : List Packed} (h : ∀ r ∈ rs, r.Fits z) (pack : Bytes)
    (entries : List IndexEntry) :
    (rs.map Packed.object).foldlM (addRecord z) (pack, entries) =
      .ok (pack ++ recordsBytes rs, entries ++ rowsFrom pack.length rs) := by
  induction rs generalizing pack entries with
  | nil => simp [recordsBytes, rowsFrom, pure, Except.pure]
  | cons r rs ih =>
    have hr := h r List.mem_cons_self
    have hstep : addRecord z (pack, entries) r.object =
        .ok (pack ++ r.bytes, entries ++ [⟨r.id, pack.length + 32, r.compressed.length⟩]) := by
      unfold addRecord Packed.object
      rw [hr.compressed]
      simp only [Packed.bytes, List.append_assoc, List.length_append, hr.width]
    rw [List.map_cons, List.foldlM_cons, hstep]
    refine (ih (fun r hr => h r (List.mem_cons_of_mem _ hr)) _ _).trans ?_
    simp only [recordsBytes, List.flatMap_cons, List.append_assoc, rowsFrom, List.length_append,
      List.singleton_append]

theorem buildPack_eq {z : Zstd} {rs : List Packed} (h : ∀ r ∈ rs, r.Fits z) :
    buildPack z (rs.map Packed.object) =
      .ok (packHeader ++ recordsBytes rs, indexBytes (sortEntries (rowsFrom 8 rs))) := by
  rw [buildPack, addRecords_eq h]
  rfl

theorem writeObjects_eq {z : Zstd} {rs : List Packed} (h : ∀ r ∈ rs, r.Fits z) (w : PackWriter)
    (hpos : w.pos + (recordsBytes rs).length < 2 ^ 64)
    (hcount : w.countWritten + rs.length < 2 ^ 32) :
    (rs.map Packed.object).foldlM (PackWriter.writeObject z) w =
      .ok { w with
        out := w.out ++ recordsBytes rs
        pos := w.pos + (recordsBytes rs).length
        countWritten := w.countWritten + rs.length
        entries := w.entries ++ rowsFrom w.pos rs } := by
  induction rs generalizing w with
  | nil => simp [recordsBytes, rowsFrom, pure, Except.pure]
  | cons r rs ih =>
    have hr := h r List.mem_cons_self
    have hlen := hr.length_bytes
    have hall : (recordsBytes (r :: rs)).length = r.bytes.length + (recordsBytes rs).length := by
      rw [recordsBytes, List.flatMap_cons, List.length_append]
      rfl
    rw [hall] at hpos ⊢
    rw [List.length_cons] at hcount
    have hstep : PackWriter.writeObject z w r.object =
        .ok { w with
          out := w.out ++ r.bytes
          pos := w.pos + r.bytes.length
          countWritten := w.countWritten + 1
          entries := w.entries ++ [⟨r.id, w.pos + 32, r.compressed.length⟩] } := by
      unfold PackWriter.writeObject Packed.object
      simp only [hr.compressed]
      rw [Returns.add64 (by omega)]
      change (add64 (w.pos + 32) 4 >>= fun _ => _) = _
      rw [Returns.add64 (by omega)]
      change (add64 (w.pos + 32 + 4) r.compressed.length >>= fun _ => _) = _
      rw [Returns.add64 (by omega)]
      change (PackWriter.countUp w.countWritten >>= fun _ => _) = _
      rw [PackWriter.countUp, if_pos (by omega)]
      have hend : w.pos + 32 + 4 + r.compressed.length = w.pos + r.bytes.length := by omega
      simp only [bind, Except.bind, hend, Packed.bytes, List.append_assoc]
    rw [List.map_cons, List.foldlM_cons, hstep]
    refine (ih (fun r hr => h r (List.mem_cons_of_mem _ hr)) _ ?_ ?_).trans ?_
    · change w.pos + r.bytes.length + (recordsBytes rs).length < 2 ^ 64
      omega
    · change w.countWritten + 1 + rs.length < 2 ^ 32
      omega
    · simp only [recordsBytes, List.flatMap_cons, List.append_assoc, rowsFrom, List.length_cons,
        List.singleton_append, Nat.add_assoc, Nat.add_comm 1]

/-- The writer that is fed one object after another makes the same pack and the same index. -/
theorem writeAll_eq {z : Zstd} {rs : List Packed} (h : ∀ r ∈ rs, r.Fits z)
    (hpos : (packHeader ++ recordsBytes rs).length < 2 ^ 64) (hcount : rs.length < 2 ^ 32) :
    PackWriter.writeAll z rs.length (rs.map Packed.object) =
      .ok (packHeader ++ recordsBytes rs, indexBytes (sortEntries (rowsFrom 8 rs))) := by
  have hpos' : 8 + (recordsBytes rs).length < 2 ^ 64 := by
    rwa [List.length_append] at hpos
  have hwrite := writeObjects_eq h (PackWriter.new rs.length) hpos'
    (by simpa [PackWriter.new] using hcount)
  rw [PackWriter.writeAll, hwrite]
  simp [PackWriter.finish, PackWriter.new, bind, Except.bind]

/-! ## The index -/

/-- A row that fits its bytes. -/
structure RowFits (e : IndexEntry) : Prop where
  width : e.id.bytes.length = 32
  offset : e.offset < 2 ^ 64
  length : e.length < 2 ^ 64

theorem slice_mid {before mid after : Bytes} {i j : Nat} (hi : before.length = i)
    (hj : i + mid.length = j) :
    (slice (before ++ (mid ++ after)) i j : Except (Stop CoreError) Bytes) = .ok mid := by
  subst hi hj
  rw [Returns.slice (by omega) (by simp)]
  simp

theorem length_rowBytes {e : IndexEntry} (h : RowFits e) : (rowBytes e).length = ROW := by
  simp [rowBytes, h.width, ROW]

theorem parseRows_rows {entries : List IndexEntry} {before : Bytes} {i : Nat}
    {prev : Option ObjectId} (hfit : ∀ e ∈ entries, RowFits e)
    (hsorted : entries.Pairwise (fun a b => compare a.id b.id = .lt))
    (hprev : ∀ p, prev = some p → ∀ e ∈ entries, compare p e.id = .lt)
    (hbefore : before.length = 16 + i * ROW) :
    parseRows (before ++ entries.flatMap rowBytes) prev i entries.length = .ok entries := by
  induction entries generalizing before i prev with
  | nil => rfl
  | cons e entries ih =>
    have he := hfit e List.mem_cons_self
    have hrest := List.pairwise_cons.mp hsorted
    have hid : (slice (before ++ (e :: entries).flatMap rowBytes) (16 + i * ROW)
        (16 + i * ROW + 32) : Except (Stop CoreError) Bytes) = .ok e.id.bytes := by
      rw [List.flatMap_cons, rowBytes, List.append_assoc]
      exact slice_mid hbefore (by rw [he.width])
    have hoffset : (slice (before ++ (e :: entries).flatMap rowBytes) (16 + i * ROW + 32)
        (16 + i * ROW + 40) : Except (Stop CoreError) Bytes) = .ok (leBytes 8 e.offset) := by
      rw [List.flatMap_cons, rowBytes, List.append_assoc, List.append_assoc, ← List.append_assoc]
      refine slice_mid ?_ ?_
      · rw [List.length_append, hbefore, he.width]
      · rw [ByteReader.length_leBytes]
    have hlength : (slice (before ++ (e :: entries).flatMap rowBytes) (16 + i * ROW + 40)
        (16 + i * ROW + 48) : Except (Stop CoreError) Bytes) = .ok (leBytes 8 e.length) := by
      rw [List.flatMap_cons, rowBytes, List.append_assoc, List.append_assoc, ← List.append_assoc,
        ← List.append_assoc]
      refine slice_mid ?_ ?_
      · rw [List.length_append, List.length_append, hbefore, he.width, ByteReader.length_leBytes]
      · rw [ByteReader.length_leBytes]
    have horder : prev.any (fun p => (compare p e.id).isGE) = false := by
      cases prev with
      | none => rfl
      | some p =>
        have hp := hprev p rfl e List.mem_cons_self
        simp [hp]
    have hnext : parseRows (before ++ (e :: entries).flatMap rowBytes) (some e.id) (i + 1)
        entries.length = .ok entries := by
      rw [List.flatMap_cons, ← List.append_assoc]
      refine ih (fun e' he' => hfit e' (List.mem_cons_of_mem _ he')) hrest.2 ?_ ?_
      · intro p hp e' he'
        cases hp
        exact hrest.1 e' he'
      · rw [List.length_append, hbefore, length_rowBytes he, Nat.add_mul]
        omega
    rw [List.length_cons, parseRows, hid]
    simp only [bind, Except.bind, horder, hoffset, hlength, hnext, Bool.false_eq_true, if_false]
    rw [ByteReader.ofLe_leBytes (by simpa using he.offset),
      ByteReader.ofLe_leBytes (by simpa using he.length)]

/-- An index in order is read back row by row. -/
theorem parseIndex_indexBytes {entries : List IndexEntry} (hfit : ∀ e ∈ entries, RowFits e)
    (hsorted : entries.Pairwise (fun a b => compare a.id b.id = .lt))
    (hlen : (indexBytes entries).length < 2 ^ 63) :
    parseIndex (indexBytes entries) = .ok entries := by
  have hrows : (entries.flatMap rowBytes).length = entries.length * ROW := by
    rw [List.length_flatMap, List.map_congr_left (fun e he => length_rowBytes (hfit e he)),
      List.map_const', List.sum_replicate, smul_eq_mul]
  have hlength : (indexBytes entries).length = entries.length * ROW + 16 := by
    rw [indexBytes]
    simp only [List.length_append, ByteReader.length_leBytes, hrows]
    change 4 + (4 + (8 + _)) = _
    omega
  have hcount : entries.length < 2 ^ 64 := by
    unfold ROW at hlength
    omega
  have hread : parseRows (indexBytes entries) none 0 entries.length = .ok entries := by
    have h : parseRows (IDX_MAGIC ++ (leBytes 4 FORMAT_VERSION ++ leBytes 8 entries.length) ++
        entries.flatMap rowBytes) none 0 entries.length = .ok entries :=
      parseRows_rows hfit hsorted (by simp) (by simp [IDX_MAGIC])
    simpa [indexBytes, List.append_assoc] using h
  have hmagic : (indexBytes entries).take 4 = IDX_MAGIC := rfl
  have hver : ((indexBytes entries).drop 4).take 4 = leBytes 4 FORMAT_VERSION := rfl
  have hcounted : ((indexBytes entries).drop 8).take 8 = leBytes 8 entries.length := by
    have hdrop : (indexBytes entries).drop 8 =
        leBytes 8 entries.length ++ entries.flatMap rowBytes := rfl
    rw [hdrop, List.take_left' (ByteReader.length_leBytes _ _)]
  unfold parseIndex
  simp only [hmagic, hver, hcounted]
  rw [ByteReader.ofLe_leBytes (by decide), ByteReader.ofLe_leBytes (by simpa using hcount)]
  have hmagical : ¬ ((indexBytes entries).length < 16 ∨ IDX_MAGIC ≠ IDX_MAGIC) := by
    rintro (hshort | hne)
    · omega
    · exact hne rfl
  rw [if_neg hmagical, if_neg (by simp), if_neg (by omega), if_neg (by omega)]
  exact hread

theorem sortEntries_perm (entries : List IndexEntry) : (sortEntries entries).Perm entries :=
  List.mergeSort_perm entries _

theorem sortEntries_ascend {entries : List IndexEntry} (h : (entries.map (·.id)).Nodup) :
    (sortEntries entries).Pairwise (fun a b => compare a.id b.id = .lt) := by
  have hle : (sortEntries entries).Pairwise (fun a b => (compare a.id b.id).isLE = true) :=
    pairwise_mergeSort_key IndexEntry.id entries
  have hne : (sortEntries entries).Pairwise (fun a b => a.id ≠ b.id) := by
    refine List.pairwise_map.mp (?_ : ((sortEntries entries).map (·.id)).Pairwise (· ≠ ·))
    exact ((sortEntries_perm entries).map (·.id)).nodup_iff.mpr h
  refine (hle.and hne).imp ?_
  rintro a b ⟨hab, hdiff⟩
  cases hcmp : compare a.id b.id with
  | lt => rfl
  | eq => exact absurd (Std.LawfulEqOrd.eq_of_compare hcmp) hdiff
  | gt => simp [hcmp] at hab

/-! ## The readers -/

/-- What one side compresses the other decompresses. -/
def Zstd.Inverts (z : Zstd) : Prop :=
  ∀ b c, z.encodeAll b = .ok c → ∃ d, z.decoder c = .ok d ∧ d.source.data = b ∧ d.fault = none

theorem decodeAll_eq {z : Zstd} (hz : z.Inverts) {b c : Bytes} (h : z.encodeAll b = .ok c) :
    (decodeAll z c).1 = .ok b := by
  obtain ⟨d, hopen, hdata, hfault⟩ := hz b c h
  unfold decodeAll
  simp only [hopen, hfault, hdata]

theorem decompressMax_eq {z : Zstd} (hz : z.Inverts) {b c : Bytes} {max : Nat}
    (h : z.encodeAll b = .ok c) (hlen : b.length ≤ max) (hmax : max + 1 < 2 ^ 64) :
    (decompressMax z c max).1 = .ok b := by
  obtain ⟨d, hopen, hdata, hfault⟩ := hz b c h
  have hread : (readLimited (max + 1) (firstStep c) d.source).1 = b := by
    rw [(readLimited_take _ _ _).1, hdata, List.take_of_length_le (by omega)]
  unfold decompressMax readDecoder
  simp only [hopen, Returns.add64 hmax, hfault, hread]
  rw [if_neg (by omega)]

section Records

variable {z : Zstd} {hash : Bytes → Bytes}

/-- The record is one of `o` under its own id. -/
structure Packed.Holds (hash : Bytes → Bytes) (r : Packed) (o : Object) : Prop where
  id : (⟨hash r.canonical⟩ : ObjectId) = r.id
  decodes : Object.decode r.canonical = .ok o

theorem decodeVerified_holds {r : Packed} {o : Object} (h : r.Holds hash o) (failed : CoreError) :
    Object.decodeVerified hash failed r.id r.canonical = .ok o := by
  rw [Object.decodeVerified, if_pos h.id, h.decodes]

theorem record_inPack {front back c : Bytes} (hc : c.length < 2 ^ 32) :
    InPack (front ++ (leBytes 4 c.length ++ (c ++ back))) front.length ∧
      lengthAt (front ++ (leBytes 4 c.length ++ (c ++ back))) front.length = c.length ∧
      payloadAt (front ++ (leBytes 4 c.length ++ (c ++ back))) front.length = c := by
  have hword : lengthAt (front ++ (leBytes 4 c.length ++ (c ++ back))) front.length =
      c.length := by
    rw [lengthAt, List.drop_left, List.take_left' (ByteReader.length_leBytes _ _),
      ByteReader.ofLe_leBytes (by simpa using hc)]
  refine ⟨⟨?_, ?_⟩, hword, ?_⟩
  · simp only [List.length_append, ByteReader.length_leBytes]
    omega
  · rw [hword]
    simp only [List.length_append, ByteReader.length_leBytes]
    omega
  · rw [payloadAt, hword, ← List.append_assoc]
    rw [List.drop_left' (by simp), List.take_left]

/-- A record is found at the offset of its row. -/
theorem readObjectAt_row (hz : z.Inverts) {before after : List Packed} {r : Packed} {o : Object}
    (hr : r.Fits z) (ho : r.Holds hash o)
    (hpack : (packHeader ++ recordsBytes (before ++ r :: after)).length < 2 ^ 63) :
    readObjectAt z hash (packHeader ++ recordsBytes (before ++ r :: after))
      (8 + (recordsBytes before).length + 32) r.id = .ok o := by
  have hsplit : packHeader ++ recordsBytes (before ++ r :: after) =
      (packHeader ++ (recordsBytes before ++ r.id.bytes)) ++
        (leBytes 4 r.compressed.length ++ (r.compressed ++ recordsBytes after)) := by
    simp only [recordsBytes, List.flatMap_append, List.flatMap_cons, Packed.bytes,
      List.append_assoc]
  have hfront : (packHeader ++ (recordsBytes before ++ r.id.bytes)).length =
      8 + (recordsBytes before).length + 32 := by
    rw [List.length_append, List.length_append, hr.width, ← Nat.add_assoc]
    rfl
  obtain ⟨hin, hlen, hpayload⟩ := @record_inPack
    (packHeader ++ (recordsBytes before ++ r.id.bytes)) (recordsBytes after) _ hr.short
  rw [← hsplit, hfront] at hin hlen hpayload
  have hnone : ∀ m, (none : Option Nat) = some m → lengthAt (packHeader ++
      recordsBytes (before ++ r :: after)) (8 + (recordsBytes before).length + 32) ≤ m := by
    intro m hm
    cases hm
  rw [readObjectAt, readRecordAt_inPack z hash r.id hpack hin hnone, hpayload]
  change ((decodeAll z r.compressed).1 >>= fun _ => _) = _
  rw [decodeAll_eq hz hr.compressed]
  change stopped (Object.decodeVerified hash _ r.id r.canonical) = _
  rw [decodeVerified_holds ho]
  rfl

/-- A record is taken off the source, and nothing behind it. -/
theorem readRecord_record (hz : z.Inverts) {max : Nat} {r : Packed} {o : Object} {rest : Bytes}
    {s : Source} (hr : r.Fits z) (ho : r.Holds hash o) (hcanonical : r.canonical.length ≤ max)
    (hcompressed : r.compressed.length ≤ max) (hmax : max + 1 < 2 ^ 64)
    (hs : s.data = r.bytes ++ rest) :
    ∃ s', readRecord z hash max s = .ok (some ((r.id, o), s')) ∧ s'.data = rest := by
  obtain ⟨hid, hbehind⟩ := Wire.readUpTo_eq 32 s
  rw [hs, Packed.bytes, List.append_assoc, List.take_left' hr.width] at hid
  rw [hs, Packed.bytes, List.append_assoc, List.drop_left' hr.width] at hbehind
  obtain ⟨hword, hpayload⟩ := Wire.readUpTo_eq 4 (readUpTo 32 s).2
  have hfour : (leBytes 4 r.compressed.length).length = 4 := ByteReader.length_leBytes _ _
  rw [hbehind, List.append_assoc, List.take_left' hfour] at hword
  rw [hbehind, List.append_assoc, List.drop_left' hfour] at hpayload
  have hlen : ofLe (leBytes 4 r.compressed.length) = r.compressed.length :=
    ByteReader.ofLe_leBytes (by simpa using hr.short)
  obtain ⟨hbody, hleft⟩ := Wire.readLimited_eq r.compressed.length
    (readUpTo 4 (readUpTo 32 s).2).2
  rw [hpayload, List.take_left] at hbody
  rw [hpayload, List.drop_left] at hleft
  have hne : r.id.bytes ≠ [] := by
    intro h
    have hwidth := hr.width
    rw [h] at hwidth
    cases hwidth
  have hhash : hash r.canonical = r.id.bytes := congrArg ObjectId.bytes ho.id
  refine ⟨_, ?_, hleft⟩
  unfold readRecord
  simp only [hid, if_neg hne, hr.width, hword, hlen, hbody, ne_eq, not_true_eq_false, if_false,
    hfour, Nat.lt_irrefl, if_neg (Nat.not_lt.mpr hcompressed),
    decompressMax_eq hz hr.compressed hcanonical hmax, bind, Except.bind, hhash,
    decodeVerified_holds ho, stopped]

variable {σ : Type}

/-- The callback on one record after the other. -/
def deliver (f : Callback σ) : List (ObjectId × Object) → EStateM (Stop CoreError) σ Unit
  | [] => pure ()
  | r :: rest => do
    f r.1 r.2
    deliver f rest

/-- A pack of records within the cap hands all of them out, and ends. -/
theorem parseRecords_records (hz : z.Inverts) {max : Nat} {rs : List Packed} {os : List Object}
    (f : Callback σ) (hmax : max + 1 < 2 ^ 64)
    (h : List.Forall₂ (fun r o => r.Fits z ∧ r.Holds hash o ∧ r.canonical.length ≤ max ∧
      r.compressed.length ≤ max) rs os) {rounds : Nat} {s : Source} (hs : s.data = recordsBytes rs)
    (hrounds : rs.length < rounds) :
    parseRecords z hash max f rounds s = deliver f ((rs.map (·.id)).zip os) := by
  induction h generalizing rounds s with
  | nil =>
    obtain ⟨rounds, rfl⟩ := Nat.exists_eq_add_of_lt hrounds
    have hend : readRecord z hash max s = .ok none := by
      have hdata : (readUpTo 32 s).1 = [] := by
        rw [(Wire.readUpTo_eq 32 s).1, hs]
        rfl
      unfold readRecord
      simp only [hdata, if_true]
    rw [parseRecords, hend]
    rfl
  | @cons r o rs os hr _ ih =>
    obtain ⟨hfits, hholds, hcanonical, hcompressed⟩ := hr
    obtain ⟨rounds, rfl⟩ : ∃ n, rounds = n + 1 := ⟨rounds - 1, by omega⟩
    have hs' : s.data = r.bytes ++ recordsBytes rs := by
      rw [hs, recordsBytes, List.flatMap_cons]
      rfl
    obtain ⟨s', hread, hrest⟩ :=
      readRecord_record hz hfits hholds hcanonical hcompressed hmax hs'
    rw [parseRecords, hread]
    change (f r.id o >>= fun _ => parseRecords z hash max f rounds s') = _
    rw [ih hrest (by simpa using hrounds)]
    rfl

/-- The callback that keeps what it is given. -/
def collect : Callback (List (ObjectId × Object)) := fun id o rs => .ok () (rs ++ [(id, o)])

theorem deliver_collect (rs before : List (ObjectId × Object)) :
    deliver collect rs before = .ok () (before ++ rs) := by
  induction rs generalizing before with
  | nil => simp [deliver, pure, EStateM.pure]
  | cons r rs ih =>
    change deliver collect rs (before ++ [r]) = _
    rw [ih, List.append_assoc, List.singleton_append]

theorem parsePackReaderMax_pack (hz : z.Inverts) {max : Nat} {rs : List Packed} {os : List Object}
    (f : Callback σ) (hmax : max + 1 < 2 ^ 64)
    (h : List.Forall₂ (fun r o => r.Fits z ∧ r.Holds hash o ∧ r.canonical.length ≤ max ∧
      r.compressed.length ≤ max) rs os) {s : Source} (hs : s.data = packHeader ++ recordsBytes rs) :
    parsePackReaderMax z hash max s f = deliver f ((rs.map (·.id)).zip os) := by
  obtain ⟨hheader, hbehind⟩ := Wire.readUpTo_eq 8 s
  have height : packHeader.length = 8 := rfl
  rw [hs, List.take_left' height] at hheader
  rw [hs, List.drop_left' height] at hbehind
  have hver : ofLe (packHeader.drop 4) = FORMAT_VERSION := by decide
  have hmagic : packHeader.take 4 = PACK_MAGIC := rfl
  have hrounds : rs.length < s.data.length + 1 := by
    have hshort : rs.length ≤ (recordsBytes rs).length := by
      rw [recordsBytes, List.length_flatMap]
      have hmap : rs.length = (rs.map (fun r => r.bytes.length)).length :=
        (List.length_map _).symm
      rw [hmap]
      refine List.length_le_sum_of_one_le _ (fun n hn => ?_)
      obtain ⟨r, hr, rfl⟩ := List.mem_map.mp hn
      obtain ⟨o, ho⟩ := exists_of_forall₂_left h hr
      rw [ho.1.length_bytes]
      omega
    rw [hs, List.length_append]
    omega
  unfold parsePackReaderMax
  simp only [hheader, height, Nat.lt_irrefl, if_false, hmagic, hver, ne_eq, not_true_eq_false]
  exact parseRecords_records hz f hmax h hbehind hrounds

end Records

/-! ## The round trip -/

/-- What a pack may be built of: no id twice, each the hash of its bytes, bytes that decode, and
less than 2^32 bytes once compressed. -/
structure PackInput (z : Zstd) (hash : Bytes → Bytes) (objects : List (ObjectId × Bytes)) :
    Prop where
  ids : (objects.map (·.1)).Nodup
  hashed : ∀ p ∈ objects, (⟨hash p.2⟩ : ObjectId) = p.1
  decodes : ∀ p ∈ objects, ∃ o, Object.decode p.2 = .ok o
  compresses : ∀ p ∈ objects, ∃ c, z.encodeAll p.2 = .ok c ∧ c.length < 2 ^ 32

/-- The other writer makes the same files, and all three readers agree with what went in. -/
structure ReadsBack (z : Zstd) (hash : Bytes → Bytes) (objects : List (ObjectId × Bytes))
    (pack idx : Bytes) : Prop where
  writer : objects.length < 2 ^ 32 →
    PackWriter.writeAll z objects.length objects = .ok (pack, idx)
  index : ∃ rows, parseIndex idx = .ok rows ∧
    rows.Pairwise (fun a b => compare a.id b.id = .lt) ∧
    (rows.map (·.id)).Perm (objects.map (·.1)) ∧
    ∀ row ∈ rows, ∀ p ∈ objects, p.1 = row.id →
      ∃ o, Object.decode p.2 = .ok o ∧ readObjectAt z hash pack row.offset row.id = .ok o
  stream : ∀ (cap : Nat) (s : Source), cap + 1 < 2 ^ 64 → (∀ p ∈ objects, p.2.length ≤ cap) →
    (∀ p ∈ objects, ∀ c, z.encodeAll p.2 = .ok c → c.length ≤ cap) → s.data = pack →
      ∃ out, List.Forall₂ (fun p r => r.1 = p.1 ∧ Object.decode p.2 = .ok r.2) objects out ∧
        parsePackReaderMax z hash cap s collect [] = .ok () out

/-- The objects with what they are compressed to and what they decode to. -/
theorem PackInput.packed {z : Zstd} {hash : Bytes → Bytes} {objects : List (ObjectId × Bytes)}
    (hwidth : ∀ b, (hash b).length = 32) (h : PackInput z hash objects) :
    ∃ rs os, rs.map Packed.object = objects ∧
      List.Forall₂ (fun r o => Packed.Fits z r ∧ r.Holds hash o) rs os := by
  obtain ⟨-, hhash, hdecode, hcompress⟩ := h
  induction objects with
  | nil => exact ⟨[], [], rfl, .nil⟩
  | cons p objects ih =>
    obtain ⟨rs, os, rfl, hall⟩ := ih (fun q hq => hhash q (List.mem_cons_of_mem _ hq))
      (fun q hq => hdecode q (List.mem_cons_of_mem _ hq))
      (fun q hq => hcompress q (List.mem_cons_of_mem _ hq))
    obtain ⟨o, ho⟩ := hdecode p List.mem_cons_self
    obtain ⟨c, hc, hshort⟩ := hcompress p List.mem_cons_self
    have hid := hhash p List.mem_cons_self
    refine ⟨⟨p.1, p.2, c⟩ :: rs, o :: os, rfl, .cons ⟨⟨hc, ?_, hshort⟩, hid, ho⟩ hall⟩
    change p.1.bytes.length = 32
    rw [← hid]
    exact hwidth p.2

/-- A buffer holds less than 2^63 bytes. -/
theorem buildPack_readsBack {z : Zstd} {hash : Bytes → Bytes} {objects : List (ObjectId × Bytes)}
    (hz : z.Inverts) (hwidth : ∀ b, (hash b).length = 32) (h : PackInput z hash objects) :
    ∃ pack idx, buildPack z objects = .ok (pack, idx) ∧
      (pack.length < 2 ^ 63 → idx.length < 2 ^ 63 → ReadsBack z hash objects pack idx) := by
  obtain ⟨rs, os, rfl, hall⟩ := h.packed hwidth
  have hfits : ∀ r ∈ rs, r.Fits z := by
    intro r hr
    obtain ⟨o, ho⟩ := exists_of_forall₂_left hall hr
    exact ho.1
  refine ⟨_, _, buildPack_eq hfits, fun hpack hidx => ?_⟩
  have hids : rs.map (·.id) = (rs.map Packed.object).map (·.1) := by
    rw [List.map_map]
    rfl
  have hperm := sortEntries_perm (rowsFrom 8 rs)
  have hrow : ∀ row ∈ sortEntries (rowsFrom 8 rs), ∃ before r after, rs = before ++ r :: after ∧
      row = ⟨r.id, 8 + (recordsBytes before).length + 32, r.compressed.length⟩ :=
    fun row hmem => mem_rowsFrom (hperm.mem_iff.mp hmem)
  refine ⟨fun hcount => ?_, ?_, ?_⟩
  · rw [List.length_map] at hcount ⊢
    exact writeAll_eq hfits (by omega) hcount
  · refine ⟨sortEntries (rowsFrom 8 rs), parseIndex_indexBytes ?_ ?_ hidx, ?_, ?_, ?_⟩
    · intro row hmem
      obtain ⟨before, r, after, rfl, rfl⟩ := hrow row hmem
      have hr := hfits r (by simp)
      refine ⟨hr.width, ?_, hr.short.trans (by decide)⟩
      have hlen : (recordsBytes (before ++ r :: after)).length =
          (recordsBytes before).length + (r.bytes.length + (recordsBytes after).length) := by
        simp only [recordsBytes, List.flatMap_append, List.flatMap_cons, List.length_append]
      rw [List.length_append, hlen, hr.length_bytes] at hpack
      change 8 + (recordsBytes before).length + 32 < 2 ^ 64
      omega
    · exact sortEntries_ascend (by rw [rowsFrom_ids, hids]; exact h.ids)
    · exact sortEntries_ascend (by rw [rowsFrom_ids, hids]; exact h.ids)
    · rw [← hids, ← rowsFrom_ids 8 rs]
      exact hperm.map _
    · intro row hmem p hp hid
      obtain ⟨before, r, after, hrs, rfl⟩ := hrow row hmem
      have hrin : r ∈ rs := by
        rw [hrs]
        simp
      obtain ⟨o, hr, ho⟩ := exists_of_forall₂_left hall hrin
      have hp' : p = r.object := List.inj_on_of_nodup_map h.ids hp (List.mem_map_of_mem hrin) hid
      subst hp'
      subst hrs
      exact ⟨o, ho.decodes, readObjectAt_row hz hr ho hpack⟩
  · intro cap s hcap hcanonical hcompressed hs
    have hcapped : List.Forall₂ (fun r o => Packed.Fits z r ∧ r.Holds hash o ∧
        r.canonical.length ≤ cap ∧ r.compressed.length ≤ cap) rs os := by
      refine forall₂_imp_left hall (fun r hr o hro => ?_)
      exact ⟨hro.1, hro.2, hcanonical _ (List.mem_map_of_mem hr),
        hcompressed _ (List.mem_map_of_mem hr) _ hro.1.compressed⟩
    refine ⟨(rs.map (·.id)).zip os, ?_, ?_⟩
    · clear hcapped hrow hperm hids hfits hpack hidx hcanonical hcompressed hs h
      induction hall with
      | nil => exact .nil
      | cons hro _ ih => exact .cons ⟨rfl, hro.2.decodes⟩ ih
    · rw [parsePackReaderMax_pack hz collect hcap hcapped hs, deliver_collect, List.nil_append]

theorem testZstd_inverts : testZstd.Inverts := by
  intro b c h
  cases h
  exact ⟨⟨⟨b, fun _ => 0, 0⟩, none⟩, rfl, rfl, rfl⟩

/-- The blob that holds one byte. -/
def testObjects : List (ObjectId × Bytes) := [(⟨Object.testDigest [0, 7]⟩, [0, 7])]

theorem testObjects_input : PackInput testZstd Object.testDigest testObjects where
  ids := by decide
  hashed := by decide
  decodes := by
    intro p hp
    cases List.mem_singleton.mp hp
    exact ⟨.blob [7], rfl⟩
  compresses := by
    intro p hp
    cases List.mem_singleton.mp hp
    exact ⟨_, rfl, by decide⟩

theorem length_testDigest (b : Bytes) : (Object.testDigest b).length = 32 := by
  simp [Object.testDigest]

theorem buildPack_readsBack_stored :
    ∃ pack idx, buildPack testZstd testObjects = .ok (pack, idx) ∧
      (pack.length < 2 ^ 63 → idx.length < 2 ^ 63 →
        ReadsBack testZstd Object.testDigest testObjects pack idx) :=
  buildPack_readsBack testZstd_inverts length_testDigest testObjects_input

/-- Two bytes take eleven compressed, and a reader that takes objects of two bytes refuses them. -/
theorem stored_over_cap :
    testZstd.Inverts ∧ PackInput testZstd Object.testDigest testObjects ∧
      (∀ p ∈ testObjects, p.2.length ≤ 2) ∧
      ∃ pack idx, buildPack testZstd testObjects = .ok (pack, idx) ∧
        parsePackReaderMax testZstd Object.testDigest 2 ⟨pack, fun _ => 0, 0⟩ collect [] =
          .error (.error (overCap "record compressed length 11" 2)) [] :=
  ⟨testZstd_inverts, testObjects_input, by decide, _, _, rfl, rfl⟩

end SrcControl.Pack
