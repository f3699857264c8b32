import SrcControl.Repo.WalFormat

/-!
# The log's records are exact

A record within the caps is read back as it was written, nothing but the bytes of a record within
the caps is accepted, and no read leaves the buffer.
-/

namespace SrcControl.WalFormat

open ByteReader (Reader Reads Parses leBytes ofLe)
open Checked (Stop Sound Returns)

/-! ## Values within the caps -/

/-- A string that takes at most `cap` bytes. -/
abbrev FitsString (cap : Nat) (s : String) : Prop := (utf8 s).length ≤ cap

abbrev FitsList {α : Type} (P : α → Prop) (xs : List α) : Prop :=
  xs.length ≤ MAX_LIST ∧ ∀ x ∈ xs, P x

structure RefUpdate.Fits (u : RefUpdate) : Prop where
  branch : FitsString MAX_NAME u.branch
  old : ∀ id, u.old = some id → FitsId id
  new : FitsId u.new

abbrev FitsRef (r : String × ObjectId) : Prop := FitsString MAX_NAME r.1 ∧ FitsId r.2

structure Manifest.Fits (m : Manifest) : Prop where
  headBranch : FitsString MAX_NAME m.headBranch

structure LogEntry.Fits (e : LogEntry) : Prop where
  packs : FitsList (FitsString MAX_HASH) e.packs
  updates : FitsList RefUpdate.Fits e.updates

structure Checkpoint.Fits (c : Checkpoint) : Prop where
  refs : FitsList FitsRef c.refs
  packs : FitsList (FitsString MAX_HASH) c.packs

/-! ## The field readers -/

namespace Cursor

theorem take_eq {n : Nat} {c : ByteReader.Cursor} (hc : c.pos ≤ c.buf.length) :
    take n c = ByteReader.take (fun p => wal s!"truncated at byte {p}") n c := by
  rw [take, Checked.sub64, if_pos hc]
  change (if c.buf.length - c.pos < n then _ else _) = if c.pos + n ≤ c.buf.length then _ else _
  by_cases hn : c.pos + n ≤ c.buf.length
  · rw [if_pos hn, if_neg (by omega), Returns.slice (Nat.le_add_right _ _) hn,
      Nat.add_sub_cancel_left]
    rfl
  · rw [if_neg hn, if_pos (by omega)]

theorem take_reads (n : Nat) : Reads (take n) (fun b => b.length = n) (fun b => b) :=
  Checked.parses_of_eq (Parses.take _ n) (fun _ hc => take_eq hc)

theorem take_sound (n : Nat) : Sound (take n) := by
  intro c hc
  rw [take_eq hc, ByteReader.take]
  split_ifs
  · exact Returns.ok _
  · exact Returns.error _

/-- What is made of the bytes taken. -/
theorem taken_sound {α : Type} (n : Nat) {f : Bytes → Reader (Stop Error) α}
    (hf : ∀ b, Sound (f b)) : Sound (take n >>= f) :=
  (take_sound n).bind (take_reads n) hf

theorem taken_reads {α : Type} {n : Nat} {f : Bytes → Reader (Stop Error) α} {P : α → Prop}
    {enc : α → Bytes}
    (h : Reads (ByteReader.take (fun p => wal s!"truncated at byte {p}") n >>= f) P enc) :
    Reads (take n >>= f) P enc := by
  refine Checked.parses_of_eq h (fun c hc => ?_)
  change (take n c >>= _) = (ByteReader.take _ n c >>= _)
  rw [take_eq hc]

theorem u8_reads : Reads u8 (fun _ => True) (fun b => [b]) := taken_reads (Parses.byte _)

theorem u8_sound : Sound u8 := taken_sound 1 (fun _ => .pure _)

theorem u32_reads : Reads u32 U32 putLen := taken_reads (Parses.le _ 4)

theorem u32_sound : Sound u32 := taken_sound 4 (fun _ => .pure _)

theorem u64_reads : Reads u64 (fun _ => True) putU64 := by
  refine (Parses.bind (take_reads 8)
    (fun b _ _ => Parses.pure (UInt64.ofNat (ofLe b)))).congr ?_
  intro v x
  constructor
  · rintro ⟨_, b, _, ⟨hl, rfl⟩, ⟨rfl, rfl⟩, rfl⟩
    have hlt : ofLe b < 2 ^ 64 := by
      have := ByteReader.ofLe_lt b
      rwa [hl] at this
    rw [List.append_nil, putU64, UInt64.toNat_ofNat_of_lt' hlt, ← hl, ByteReader.leBytes_ofLe]
    exact ⟨trivial, rfl⟩
  · rintro ⟨-, rfl⟩
    refine ⟨leBytes 8 v.toNat, _, [], ⟨ByteReader.length_leBytes _ _, rfl⟩, ⟨?_, rfl⟩,
      (List.append_nil _).symm⟩
    rw [ByteReader.ofLe_leBytes (UInt64.toNat_lt v), UInt64.ofNat_toNat]

theorem u64_sound : Sound u64 := taken_sound 8 (fun _ => .pure _)

theorem id_reads : Reads id FitsId ObjectId.bytes := by
  refine (Parses.bind (take_reads 32) (fun b _ _ => Parses.pure (⟨b⟩ : ObjectId))).congr ?_
  intro i x
  constructor
  · rintro ⟨_, b, _, ⟨hl, rfl⟩, ⟨rfl, rfl⟩, rfl⟩
    exact ⟨hl, List.append_nil b⟩
  · rintro ⟨hi, rfl⟩
    exact ⟨i.bytes, _, [], ⟨hi, rfl⟩, ⟨rfl, rfl⟩, (List.append_nil _).symm⟩

theorem id_sound : Sound id := taken_sound 32 (fun _ => .pure _)

/-- The bytes of a string behind its length. -/
theorem sized_reads (cap : Nat) : Reads (do
      let n ← u32
      if n > cap then throw (wal s!"length {n} exceeds cap {cap}") else take n)
    (fun b => b.length ≤ cap ∧ U32 b.length) (fun b => putLen b.length ++ b) := by
  have hbody : ∀ n, Parses (if n > cap then throw (wal s!"length {n} exceeds cap {cap}")
      else take n) (fun b x => n ≤ cap ∧ b.length = n ∧ x = b) := by
    intro n
    split_ifs with hn
    · exact (Parses.throw _).congr (fun b x => by simp [Nat.not_le.mpr hn])
    · exact (take_reads n).congr (fun b x => by simp [Nat.not_lt.mp hn])
  refine (Parses.bind u32_reads (fun n _ _ => hbody n)).congr ?_
  intro b x
  constructor
  · rintro ⟨n, _, _, ⟨hn, rfl⟩, ⟨hcap, rfl, rfl⟩, rfl⟩
    exact ⟨⟨hcap, hn⟩, rfl⟩
  · rintro ⟨⟨hcap, hn⟩, rfl⟩
    exact ⟨b.length, _, b, ⟨hn, rfl⟩, ⟨hcap, rfl, rfl⟩, rfl⟩

theorem string_reads {cap : Nat} (hcap : cap < 2 ^ 32) :
    Reads (string cap) (FitsString cap) pushString := by
  have htext := Parses.text (wal "non-utf8 name") (sized_reads cap)
  have hcapped : ∀ (n : Nat) (g : Bytes → Reader (Stop Error) String),
      ((if n > cap then throw (wal s!"length {n} exceeds cap {cap}") else take n) >>= g) =
        if n > cap then throw (wal s!"length {n} exceeds cap {cap}") else take n >>= g := by
    intro n g
    split_ifs
    · rfl
    · rfl
  simp only [bind_assoc, hcapped] at htext
  refine htext.congr (fun s x => and_congr ?_ Iff.rfl)
  exact ⟨fun h => h.1, fun h => ⟨h, lt_of_le_of_lt h hcap⟩⟩

theorem string_sound (cap : Nat) : Sound (string cap) := by
  refine u32_sound.bind u32_reads (fun n => ?_)
  split_ifs
  · exact .throw _
  · refine taken_sound n (fun b => ?_)
    cases String.fromUTF8? ⟨b.toArray⟩ with
    | some s => exact .pure s
    | none => exact .throw _

theorem list_reads {α : Type} {read : Reader (Stop Error) α} {P : α → Prop} {put : α → Bytes}
    (tooMany : Nat → String) (h : Reads read P put) :
    Reads (list tooMany read) (WalFormat.FitsList P) (putList put) := by
  refine (Parses.capped MAX_LIST (fun n => wal (tooMany n)) u32_reads h).congr
    (fun xs x => and_congr ?_ Iff.rfl)
  exact ⟨fun h => ⟨h.1.1, h.2⟩, fun h => ⟨⟨h.1, lt_of_le_of_lt h.1 (by decide)⟩, h.2⟩⟩

theorem list_sound {α : Type} {read : Reader (Stop Error) α} {P : α → Prop} {put : α → Bytes}
    (tooMany : Nat → String) (h : Reads read P put) (hs : Sound read) :
    Sound (list tooMany read) := by
  refine u32_sound.bind u32_reads (fun n => ?_)
  split_ifs
  · exact .throw _
  · exact hs.times h n

theorem old_reads : Reads old (fun o => ∀ id, o = some id → FitsId id) putOld := by
  refine (Parses.option (fun flag => wal s!"bad has_old flag: {flag}") u8_reads id_reads).congr
    (fun o x => ?_)
  cases o <;> rfl

theorem old_sound : Sound old := by
  refine u8_sound.bind u8_reads (fun flag => ?_)
  split_ifs
  · exact .pure none
  · exact id_sound.bind id_reads (fun _ => .pure _)
  · exact .throw _

theorem update_reads : Reads update RefUpdate.Fits putUpdate := by
  refine (Parses.field (C := fun _ => True) RefUpdate.branch (string_reads (by decide)) fun _ _ =>
    Parses.field RefUpdate.old old_reads fun _ _ =>
    Parses.field RefUpdate.new id_reads fun _ _ => Parses.record ?_).congr ?_
  · rintro ⟨branch, old, new⟩
    simp [and_assoc]
  · intro u x
    constructor
    · rintro ⟨⟨-, hbranch, hold, hnew, -⟩, rfl⟩
      exact ⟨⟨hbranch, hold, hnew⟩, by simp [putUpdate]⟩
    · rintro ⟨h, rfl⟩
      exact ⟨⟨trivial, h.branch, h.old, h.new, trivial⟩, by simp [putUpdate]⟩

theorem update_sound : Sound update :=
  (string_sound _).bind (string_reads (by decide)) fun _ =>
    old_sound.bind old_reads fun _ => id_sound.bind id_reads fun _ => .pure _

theorem ref_reads : Reads ref FitsRef putRef := by
  refine (Parses.field (C := fun _ => True) Prod.fst (string_reads (by decide)) fun _ _ =>
    Parses.field Prod.snd id_reads fun _ _ => Parses.record ?_).congr ?_
  · rintro ⟨branch, id⟩
    simp
  · intro r x
    simp [FitsRef, putRef]

theorem ref_sound : Sound ref :=
  (string_sound _).bind (string_reads (by decide)) fun _ => id_sound.bind id_reads fun _ => .pure _

/-! ## Records -/

theorem manifest_reads : Reads manifest Manifest.Fits Manifest.fields := by
  refine (Parses.field (C := fun _ => True) Manifest.headSeq u64_reads fun _ _ =>
    Parses.field Manifest.checkpointSeq u64_reads fun _ _ =>
    Parses.field Manifest.headBranch (string_reads (by decide)) fun _ _ =>
    Parses.record ?_).congr ?_
  · rintro ⟨headSeq, checkpointSeq, headBranch⟩
    simp [and_assoc]
  · intro m x
    constructor
    · rintro ⟨⟨-, -, -, hbranch, -⟩, rfl⟩
      exact ⟨⟨hbranch⟩, by simp [Manifest.fields]⟩
    · rintro ⟨h, rfl⟩
      exact ⟨⟨trivial, trivial, trivial, h.headBranch, trivial⟩, by simp [Manifest.fields]⟩

theorem manifest_sound : Sound manifest :=
  u64_sound.bind u64_reads fun _ => u64_sound.bind u64_reads fun _ =>
    (string_sound _).bind (string_reads (by decide)) fun _ => .pure _

theorem logEntry_reads : Reads logEntry LogEntry.Fits LogEntry.fields := by
  refine (Parses.field (C := fun _ => True) LogEntry.seq u64_reads fun _ _ =>
    Parses.field LogEntry.parentSeq u64_reads fun _ _ =>
    Parses.field LogEntry.packs (list_reads _ (string_reads (by decide))) fun _ _ =>
    Parses.field LogEntry.updates (list_reads _ update_reads) fun _ _ =>
    Parses.record ?_).congr ?_
  · rintro ⟨seq, parentSeq, packs, updates⟩
    simp [and_assoc]
  · intro e x
    constructor
    · rintro ⟨⟨-, -, -, hpacks, hupdates, -⟩, rfl⟩
      exact ⟨⟨hpacks, hupdates⟩, by simp [LogEntry.fields]⟩
    · rintro ⟨h, rfl⟩
      exact ⟨⟨trivial, trivial, trivial, h.packs, h.updates, trivial⟩, by simp [LogEntry.fields]⟩

theorem logEntry_sound : Sound logEntry :=
  u64_sound.bind u64_reads fun _ => u64_sound.bind u64_reads fun _ =>
    (list_sound _ (string_reads (by decide)) (string_sound _)).bind
      (list_reads _ (string_reads (by decide))) fun _ =>
    (list_sound _ update_reads update_sound).bind (list_reads _ update_reads) fun _ => .pure _

theorem checkpoint_reads : Reads checkpoint Checkpoint.Fits Checkpoint.fields := by
  refine (Parses.field (C := fun _ => True) Checkpoint.seq u64_reads fun _ _ =>
    Parses.field Checkpoint.refs (list_reads _ ref_reads) fun _ _ =>
    Parses.field Checkpoint.packs (list_reads _ (string_reads (by decide))) fun _ _ =>
    Parses.record ?_).congr ?_
  · rintro ⟨seq, refs, packs⟩
    simp [and_assoc]
  · intro c x
    constructor
    · rintro ⟨⟨-, -, hrefs, hpacks, -⟩, rfl⟩
      exact ⟨⟨hrefs, hpacks⟩, by simp [Checkpoint.fields]⟩
    · rintro ⟨h, rfl⟩
      exact ⟨⟨trivial, trivial, h.refs, h.packs, trivial⟩, by simp [Checkpoint.fields]⟩

theorem checkpoint_sound : Sound checkpoint :=
  u64_sound.bind u64_reads fun _ => (list_sound _ ref_reads ref_sound).bind
    (list_reads _ ref_reads) fun _ =>
    (list_sound _ (string_reads (by decide)) (string_sound _)).bind
      (list_reads _ (string_reads (by decide))) fun _ => .pure _

theorem header_reads {magic : Bytes} (hmagic : magic.length = 4) (what : String) :
    Parses (header magic what) (fun _ x => x = putHeader magic) := by
  have hversion : Parses (do
      let v ← u32
      if v ≠ VERSION then
        throw (wal s!"{what} version {v} not supported (this build speaks {VERSION})")
      else pure ()) (fun _ x => x = putLen VERSION) := by
    have hbody : ∀ v, Parses (if v ≠ VERSION then
        throw (wal s!"{what} version {v} not supported (this build speaks {VERSION})")
        else (pure () : Reader (Stop Error) Unit)) (fun _ x => v = VERSION ∧ x = []) := by
      intro v
      split_ifs with hv
      · exact (Parses.throw _).congr (fun u x => by simp [hv])
      · exact (Parses.pure ()).congr (fun u x => by simp [not_not.mp hv])
    refine (Parses.bind u32_reads (fun v _ _ => hbody v)).congr (fun u x => ?_)
    constructor
    · rintro ⟨v, _, _, ⟨-, rfl⟩, ⟨rfl, rfl⟩, rfl⟩
      exact List.append_nil _
    · rintro rfl
      exact ⟨VERSION, _, [], ⟨by decide, rfl⟩, ⟨rfl, rfl⟩, (List.append_nil _).symm⟩
  have hbody : ∀ m : Bytes, Parses (if m ≠ magic then throw (wal s!"not a {what} (bad magic)")
      else do
        let v ← u32
        if v ≠ VERSION then
          throw (wal s!"{what} version {v} not supported (this build speaks {VERSION})")
        else pure ()) (fun _ x => m = magic ∧ x = putLen VERSION) := by
    intro m
    split_ifs with hm
    · exact (Parses.throw _).congr (fun u x => by simp [hm])
    · exact hversion.congr (fun u x => by simp [not_not.mp hm])
  refine (Parses.bind (take_reads 4) (fun m _ _ => hbody m)).congr (fun u x => ?_)
  constructor
  · rintro ⟨m, _, _, ⟨-, rfl⟩, ⟨rfl, rfl⟩, rfl⟩
    rfl
  · rintro rfl
    exact ⟨magic, _, _, ⟨hmagic, rfl⟩, ⟨rfl, rfl⟩, rfl⟩

theorem header_sound (magic : Bytes) (what : String) : Sound (header magic what) := by
  refine taken_sound 4 (fun m => ?_)
  split_ifs
  · exact .throw _
  · refine u32_sound.bind u32_reads (fun v => ?_)
    split_ifs
    · exact .throw _
    · exact .pure ()

section Whole

variable {α : Type} {magic : Bytes} {what : String} {fields : Reader (Stop Error) α}

/-- A byte string is accepted when it is, from end to end, a record behind its header. -/
theorem whole_eq_ok_iff {R : α → Bytes → Prop} (hmagic : magic.length = 4) (h : Parses fields R)
    {bytes : Bytes} {r : α} : whole magic what fields bytes = .ok r ↔
      ∃ x, R r x ∧ bytes = putHeader magic ++ x := by
  have hrun : whole magic what fields bytes =
      ((header magic what >>= fun _ => fields) ⟨bytes, 0⟩ >>= fun p =>
        done p.2 >>= fun _ => pure p.1) := by
    change (header magic what ⟨bytes, 0⟩ >>= _) = (header magic what ⟨bytes, 0⟩ >>= _) >>= _
    rw [bind_assoc]
  have hboth := Parses.bind (header_reads hmagic what) (fun _ _ _ => h)
  rw [hrun]
  constructor
  · intro hok
    cases hm : (header magic what >>= fun _ => fields) ⟨bytes, 0⟩ with
    | error e =>
      rw [hm] at hok
      cases hok
    | ok p =>
      obtain ⟨a, c⟩ := p
      obtain ⟨z, rest, hz, ⟨-, _, x, rfl, hR, rfl⟩, rfl⟩ := (hboth _ _ _ (Nat.zero_le _)).mp hm
      have hbytes : bytes = putHeader magic ++ x ++ rest := by
        simpa [ByteReader.Cursor.rest] using hz
      rw [hm] at hok
      change (done _ >>= _) = _ at hok
      rw [done] at hok
      split_ifs at hok with hend
      · cases hok
        have hrest : rest = [] := by
          have hlen := congrArg List.length hbytes
          simp only [Nat.zero_add, List.length_append] at hend hlen
          exact List.length_eq_zero_iff.mp (by omega)
        rw [hrest, List.append_nil] at hbytes
        exact ⟨x, hR, hbytes⟩
      · cases hok
  · rintro ⟨x, hR, rfl⟩
    have hm := (hboth ⟨putHeader magic ++ x, 0⟩ r ⟨_, 0 + (putHeader magic ++ x).length⟩
      (Nat.zero_le _)).mpr ⟨_, [], by simp [ByteReader.Cursor.rest], ⟨(), _, x, rfl, hR, rfl⟩, rfl⟩
    rw [hm]
    change (done _ >>= _) = _
    rw [done, if_pos (Nat.zero_add _)]
    rfl

theorem whole_returns (hmagic : magic.length = 4) (hs : Sound fields) (bytes : Bytes) : Returns (whole magic what fields bytes) := by
  refine Returns.bind (header_sound magic what _ (Nat.zero_le _)) ?_
  rintro ⟨u, c⟩ hheader
  obtain ⟨x, rest, hx, -, rfl⟩ := (header_reads hmagic what _ _ _ (Nat.zero_le _)).mp hheader
  refine Returns.bind (hs _ (ByteReader.Cursor.advance (Nat.zero_le _) hx).1) ?_
  rintro ⟨r, c⟩ -
  refine Returns.bind ?_ (fun _ _ => Returns.ok r)
  rw [done]
  split_ifs
  · exact Returns.ok _
  · exact Returns.error _

end Whole

end Cursor

/-! ## The formats -/

/-- Written records are read back, what is accepted is what a record is written as, and everything
else is refused with an error. -/
structure Exact {α : Type} (Fits : α → Prop) (encode : α → Bytes)
    (decode : Bytes → Except (Stop Error) α) : Prop where
  decode_encode : ∀ x, Fits x → decode (encode x) = .ok x
  encode_decode : ∀ b x, decode b = .ok x → encode x = b
  refuses : ∀ b, (∀ x, decode b ≠ .ok x) → ∃ e, decode b = .error (.error e)

theorem exact_of_reads {α : Type} {magic : Bytes} {what : String} {fields : Reader (Stop Error) α}
    {Fits : α → Prop} {put : α → Bytes} (hmagic : magic.length = 4) (h : Reads fields Fits put)
    (hs : Sound fields) :
    Exact Fits (fun x => putHeader magic ++ put x) (Cursor.whole magic what fields) where
  decode_encode := fun x hx => (Cursor.whole_eq_ok_iff hmagic h).mpr ⟨put x, ⟨hx, rfl⟩, rfl⟩
  encode_decode := by
    intro b x hb
    obtain ⟨_, ⟨-, rfl⟩, rfl⟩ := (Cursor.whole_eq_ok_iff hmagic h).mp hb
    rfl
  refuses := by
    intro b hb
    cases hrun : Cursor.whole magic what fields b with
    | ok x => exact absurd hrun (hb x)
    | error st =>
      obtain ⟨e, rfl⟩ := Cursor.whole_returns hmagic hs b st hrun
      exact ⟨e, rfl⟩

theorem records_exact : Exact Manifest.Fits Manifest.encode Manifest.decode ∧
    Exact LogEntry.Fits LogEntry.encode LogEntry.decode ∧
    Exact Checkpoint.Fits Checkpoint.encode Checkpoint.decode :=
  ⟨exact_of_reads rfl Cursor.manifest_reads Cursor.manifest_sound,
    exact_of_reads rfl Cursor.logEntry_reads Cursor.logEntry_sound,
    exact_of_reads rfl Cursor.checkpoint_reads Cursor.checkpoint_sound⟩

end SrcControl.WalFormat
