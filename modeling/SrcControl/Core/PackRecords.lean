import SrcControl.Core.PackExact

/-!
# What a pack hands out

However a reader's calls fall, a pack is the same records followed by the same end, and every
record is an object its id was verified for.
-/

namespace SrcControl.Pack

open ByteReader (leBytes ofLe)
open Checked (Stop)
open Wire (Source readLimited readUpTo)

variable {z : Zstd} {hash : Bytes → Bytes} {max : Nat} {σ : Type}

/-- The records up to the end of the rounds, and the error that ends them. -/
def recordsIn (z : Zstd) (hash : Bytes → Bytes) (max : Nat) :
    Nat → Source → List (ObjectId × Object) × Option (Stop CoreError)
  | 0, _ => ([], some (.error (.packCorrupt "out of rounds")))
  | rounds + 1, s =>
    match readRecord z hash max s with
    | .error e => ([], some e)
    | .ok none => ([], none)
    | .ok (some (r, s')) =>
      (r :: (recordsIn z hash max rounds s').1, (recordsIn z hash max rounds s').2)

/-- The records of a pack, and the error that ends them. -/
def packRecords (z : Zstd) (hash : Bytes → Bytes) (max : Nat) (s : Source) :
    List (ObjectId × Object) × Option (Stop CoreError) :=
  let header := readUpTo 8 s
  if header.1.length < 8 then
    ([], some (.error (.packCorrupt "truncated header: failed to fill whole buffer")))
  else if header.1.take 4 ≠ PACK_MAGIC then ([], some (.error (.packCorrupt "missing magic")))
  else
    let ver := ofLe (header.1.drop 4)
    if ver ≠ FORMAT_VERSION then
      ([], some (.error (.packCorrupt s!"unsupported version {ver}")))
    else recordsIn z hash max (s.data.length + 1) header.2

/-- The callback on the records, and then the end. -/
def deliverTo (f : Callback σ) (p : List (ObjectId × Object) × Option (Stop CoreError)) :
    EStateM (Stop CoreError) σ Unit := do
  deliver f p.1
  match p.2 with
  | none => pure ()
  | some e => throw e

theorem parseRecords_eq (f : Callback σ) (rounds : Nat) (s : Source) :
    parseRecords z hash max f rounds s = deliverTo f (recordsIn z hash max rounds s) := by
  induction rounds generalizing s with
  | zero => rfl
  | succ rounds ih =>
    unfold parseRecords recordsIn
    cases readRecord z hash max s with
    | error e => rfl
    | ok o =>
      cases o with
      | none => rfl
      | some p =>
        dsimp only
        rw [ih]
        funext st
        change EStateM.bind (f p.1.1 p.1.2) _ st = EStateM.bind (EStateM.bind _ _) _ st
        simp only [EStateM.bind]
        cases f p.1.1 p.1.2 st with
        | ok _ st' => rfl
        | error e st' => rfl

theorem parsePackReaderMax_eq (f : Callback σ) (s : Source) :
    parsePackReaderMax z hash max s f = deliverTo f (packRecords z hash max s) := by
  unfold parsePackReaderMax packRecords
  dsimp only
  split_ifs
  · rfl
  · rfl
  · rfl
  · exact parseRecords_eq f _ _

/-! ## How the calls fall -/

/-- What a read gives but for how the rest will be handed out. -/
def outcome (x : Except (Stop CoreError) (Option ((ObjectId × Object) × Source))) :
    Except (Stop CoreError) (Option ((ObjectId × Object) × Bytes)) :=
  x.map (Option.map (fun p => (p.1, p.2.data)))

theorem readRecord_congr {s t : Source} (h : s.data = t.data) :
    outcome (readRecord z hash max s) = outcome (readRecord z hash max t) := by
  obtain ⟨hid, hid'⟩ := Wire.readUpTo_eq 32 s
  obtain ⟨kid, kid'⟩ := Wire.readUpTo_eq 32 t
  obtain ⟨hlen, hlen'⟩ := Wire.readUpTo_eq 4 (readUpTo 32 s).2
  obtain ⟨klen, klen'⟩ := Wire.readUpTo_eq 4 (readUpTo 32 t).2
  have hfirst : (readUpTo 32 s).1 = (readUpTo 32 t).1 := by rw [hid, kid, h]
  have hsecond : (readUpTo 4 (readUpTo 32 s).2).1 = (readUpTo 4 (readUpTo 32 t).2).1 := by
    rw [hlen, klen, hid', kid', h]
  generalize hn : ofLe (readUpTo 4 (readUpTo 32 t).2).1 = n
  obtain ⟨hbody, hbody'⟩ := Wire.readLimited_eq n (readUpTo 4 (readUpTo 32 s).2).2
  obtain ⟨kbody, kbody'⟩ := Wire.readLimited_eq n (readUpTo 4 (readUpTo 32 t).2).2
  have hthird : (readLimited n n (readUpTo 4 (readUpTo 32 s).2).2).1 =
      (readLimited n n (readUpTo 4 (readUpTo 32 t).2).2).1 := by
    rw [hbody, kbody, hlen', klen', hid', kid', h]
  have hrest : (readLimited n n (readUpTo 4 (readUpTo 32 s).2).2).2.data =
      (readLimited n n (readUpTo 4 (readUpTo 32 t).2).2).2.data := by
    rw [hbody', kbody', hlen', klen', hid', kid', h]
  unfold readRecord
  simp only [hfirst, hsecond, hn, hthird]
  split_ifs
  · rfl
  · rfl
  · rfl
  · rfl
  · rfl
  · cases (decompressMax z (readLimited n n (readUpTo 4 (readUpTo 32 t).2).2).1 max).1 with
    | error e => rfl
    | ok canonical =>
      simp only [bind, Except.bind]
      cases stopped (Object.decodeVerified hash _ _ canonical) with
      | error e => rfl
      | ok obj => simp only [outcome, Except.map, Option.map, hrest]

theorem recordsIn_congr (rounds : Nat) {s t : Source} (h : s.data = t.data) :
    recordsIn z hash max rounds s = recordsIn z hash max rounds t := by
  induction rounds generalizing s t with
  | zero => rfl
  | succ rounds ih =>
    have hread := @readRecord_congr z hash max s t h
    unfold recordsIn
    cases hs : readRecord z hash max s with
    | error e =>
      cases ht : readRecord z hash max t with
      | error e' =>
        rw [hs, ht] at hread
        cases hread
        rfl
      | ok o => simp [hs, ht, outcome, Except.map] at hread
    | ok o =>
      cases ht : readRecord z hash max t with
      | error e' => simp [hs, ht, outcome, Except.map] at hread
      | ok o' =>
        cases o with
        | none =>
          cases o' with
          | none => rfl
          | some p => simp [hs, ht, outcome, Except.map] at hread
        | some p =>
          cases o' with
          | none => simp [hs, ht, outcome, Except.map] at hread
          | some q =>
            have hpair : p.1 = q.1 ∧ p.2.data = q.2.data := by
              simpa [hs, ht, outcome, Except.map] using hread
            dsimp only
            rw [hpair.1, ih hpair.2]

/-- The bytes of the file alone decide. -/
theorem packRecords_congr {s t : Source} (h : s.data = t.data) :
    packRecords z hash max s = packRecords z hash max t := by
  obtain ⟨hhead, hrest⟩ := Wire.readUpTo_eq 8 s
  obtain ⟨khead, krest⟩ := Wire.readUpTo_eq 8 t
  have hfirst : (readUpTo 8 s).1 = (readUpTo 8 t).1 := by rw [hhead, khead, h]
  have hsame : (readUpTo 8 s).2.data = (readUpTo 8 t).2.data := by rw [hrest, krest, h]
  unfold packRecords
  simp only [hfirst, h, recordsIn_congr _ hsame]

/-! ## Every record is verified -/

/-- The object the id's bytes decode to. -/
def Verified (hash : Bytes → Bytes) (r : ObjectId × Object) : Prop :=
  ∃ canonical, (⟨hash canonical⟩ : ObjectId) = r.1 ∧ Object.decode canonical = .ok r.2

theorem readRecord_verified {s s' : Source} {r : ObjectId × Object}
    (h : readRecord z hash max s = .ok (some (r, s'))) :
    Verified hash r ∧ s'.data.length < s.data.length := by
  obtain ⟨hid, hid'⟩ := Wire.readUpTo_eq 32 s
  obtain ⟨hlen, hlen'⟩ := Wire.readUpTo_eq 4 (readUpTo 32 s).2
  obtain ⟨hbody, hbody'⟩ := Wire.readLimited_eq (ofLe (readUpTo 4 (readUpTo 32 s).2).1)
    (readUpTo 4 (readUpTo 32 s).2).2
  have hshorter : (readUpTo 32 s).1 ≠ [] →
      (readLimited (ofLe (readUpTo 4 (readUpTo 32 s).2).1) (ofLe (readUpTo 4 (readUpTo 32 s).2).1)
        (readUpTo 4 (readUpTo 32 s).2).2).2.data.length < s.data.length := by
    intro hne
    rw [hbody', hlen', hid', List.length_drop, List.length_drop, List.length_drop]
    rw [hid] at hne
    have hpos : 0 < s.data.length := by
      cases hs : s.data with
      | nil => rw [hs] at hne; exact absurd rfl hne
      | cons b bs => exact Nat.succ_pos _
    omega
  unfold readRecord at h
  simp only at h
  split_ifs at h with hnil
  · cases h
  obtain ⟨canonical, -, h⟩ := Fallible.bind_ok h
  obtain ⟨obj, hobj, h⟩ := Fallible.bind_ok h
  cases h
  refine ⟨⟨canonical, rfl, ?_⟩, hshorter hnil⟩
  cases hdec : Object.decodeVerified hash (.packCorrupt
      (toString "hash mismatch: expected " ++ toString (⟨(readUpTo 32 s).1⟩ : ObjectId).short ++
        toString ", got " ++ toString (⟨hash canonical⟩ : ObjectId).short))
      ⟨(readUpTo 32 s).1⟩ canonical with
  | error e =>
    rw [hdec] at hobj
    cases hobj
  | ok o =>
    rw [hdec] at hobj
    cases hobj
    exact (Object.decodeVerified_eq_ok hdec).2

theorem recordsIn_verified (rounds : Nat) (s : Source) :
    ∀ r ∈ (recordsIn z hash max rounds s).1, Verified hash r := by
  induction rounds generalizing s with
  | zero => intro r hr; cases hr
  | succ rounds ih =>
    intro r hr
    unfold recordsIn at hr
    cases hread : readRecord z hash max s with
    | error e =>
      rw [hread] at hr
      cases hr
    | ok o =>
      rw [hread] at hr
      cases o with
      | none => cases hr
      | some p =>
        rcases List.mem_cons.mp hr with rfl | hr
        · exact (readRecord_verified hread).1
        · exact ih p.2 r hr

theorem packRecords_verified (s : Source) :
    ∀ r ∈ (packRecords z hash max s).1, Verified hash r := by
  intro r hr
  unfold packRecords at hr
  dsimp only at hr
  split_ifs at hr
  · cases hr
  · cases hr
  · cases hr
  · exact recordsIn_verified _ _ r hr

/-- Every round takes a byte off the source, so a pack never runs out of rounds. -/
theorem recordsIn_rounds {rounds : Nat} {s : Source} (h : s.data.length < rounds) :
    recordsIn z hash max (rounds + 1) s = recordsIn z hash max rounds s := by
  induction rounds generalizing s with
  | zero => exact absurd h (Nat.not_lt_zero _)
  | succ rounds ih =>
    rw [recordsIn, recordsIn]
    cases hread : readRecord z hash max s with
    | error e => rfl
    | ok o =>
      cases o with
      | none => rfl
      | some p =>
        have hless := (readRecord_verified hread).2
        dsimp only
        rw [ih (by omega)]

end SrcControl.Pack
