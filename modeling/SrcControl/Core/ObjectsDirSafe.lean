import SrcControl.Core.ObjectsDir

/-!
# Directories that read back

In a sound directory every copy of an object reads as the same object. A store opened on such a
directory reads whatever has a copy left, taking files away keeps it sound, and so does each of
the two writes of a new pack, which then holds a copy of all it was made of.
-/

namespace SrcControl.ObjectsDir

open Checked (Stop)
open ByteReader (leBytes ofLe)
open Pack (Zstd IndexEntry Packed packHeader recordsBytes rowsFrom parseIndex buildPack)
open CrashTrace

structure Env.Lawful (env : Env) : Prop where
  inverts : env.z.Inverts
  width : ∀ b, (env.hash b).length = 32

/-- `o` is stored under the hash of its encoding, and is less than 2^32 bytes once compressed. -/
structure Packable (env : Env) (id : ObjectId) (o : Object) : Prop where
  hashed : (⟨env.hash o.encode⟩ : ObjectId) = id
  decodes : Object.decode o.encode = .ok o
  short : ∀ c, env.z.encodeAll o.encode = .ok c → c.length < 2 ^ 32

section

variable (env : Env) (content : ObjectId → Object)

def encoded (ids : List ObjectId) : List (ObjectId × Bytes) :=
  ids.map (fun id => (id, (content id).encode))

/-- Every row of the index leads to a record that reads. -/
def Indexes (idx pack : Bytes) : Prop :=
  ∃ rows, parseIndex idx = .ok rows ∧
    ∀ row ∈ rows, readPacked env pack row.offset row.id = .ok (content row.id)

/-- Every copy reads. -/
structure Sound (d : Dir) : Prop where
  sharded : ∀ id file, d.sharded[id]? = some file →
    readObjectFile env file.bytes id = .ok (content id)
  flat : ∀ id file, d.flat[id]? = some file → readObjectFile env file.bytes id = .ok (content id)
  packs : ∀ (stem : String) (pack idx : Bytes), d.packs[stem]? = some pack →
    d.idxs[stem]? = some idx → Indexes env content idx pack

/-- The name of the pack is free for it: no other pack has it, and an index that a removal has
left behind without its pack is one for this pack. -/
structure Room (d : Dir) (pack : Bytes) : Prop where
  same : ∀ old, d.packs[packName env pack]? = some old → old = pack
  index : ∀ idx, d.idxs[packName env pack]? = some idx → Indexes env content idx pack

def Lists (idx : Bytes) (id : ObjectId) : Prop :=
  ∃ rows, parseIndex idx = .ok rows ∧ ∃ row ∈ rows, row.id = id

/-- The pack at `stem` holds a copy. -/
def InPack (d : Dir) (stem : String) (id : ObjectId) : Prop :=
  stem ∈ d.packs ∧ ∃ idx, d.idxs[stem]? = some idx ∧ Lists idx id

/-- Some copy is left. -/
def HasCopy (d : Dir) (id : ObjectId) : Prop :=
  id ∈ d.sharded ∨ id ∈ d.flat ∨ ∃ stem, InPack d stem id

/-- What an open store has read and where it looks is right for the directory. -/
structure Handle.Sound (d : Dir) (h : Handle) : Prop where
  resident : ∀ id o, h.resident[id]? = some o → o = content id
  index : ∀ id loc, h.packIndex[id]? = some loc → ∀ pack, d.packs[loc.stem]? = some pack →
    readPacked env pack loc.offset id = .ok (content id)

end

section

variable {env : Env} {content : ObjectId → Object} {d : Dir} {h : Handle} {id : ObjectId}

/-! ## Reading -/

/-- What an open store returns is the object. -/
theorem get_content (hd : Sound env content d) (hh : h.Sound env content d) {o : Object}
    (hget : get env d h id = .ok o) : o = content id := by
  unfold get at hget
  split at hget
  · next r hr =>
    cases hget
    exact hh.resident id o hr
  · unfold readDisk at hget
    split at hget
    · next file hfile =>
      have hread : readObjectFile env file.bytes id = .ok (content id) := by
        rcases Option.or_eq_some_iff.mp hfile with hs | hf
        · exact hd.sharded id file hs
        · exact hd.flat id file hf.2
      rw [hread] at hget
      exact (Except.ok.inj hget).symm
    · unfold readPackObject at hget
      split at hget
      · cases hget
      · next loc hloc =>
        split at hget
        · cases hget
        · next pack hpack =>
          rw [hh.index id loc hloc pack hpack] at hget
          exact (Except.ok.inj hget).symm

/-- What the view holds, the open store returns. -/
theorem view_get {o : Object} (hview : (view env d h).objects[id]? = some o) :
    get env d h id = .ok o := by
  have hfold : ∀ (ids : List ObjectId) (m : BTreeMap ObjectId Object),
      (∀ id o, m[id]? = some o → get env d h id = .ok o) →
        ∀ id o, (ids.foldl (addRead env d h) m)[id]? = some o → get env d h id = .ok o := by
    intro ids
    induction ids with
    | nil => exact fun _ hm => hm
    | cons x ids ih =>
      intro m hm
      refine ih _ (fun id o hid => ?_)
      unfold addRead at hid
      split at hid
      · next r hr =>
        rw [BTreeMap.getElem?_insert] at hid
        split_ifs at hid with hx
        · cases hid
          exact hx ▸ hr
        · exact hm id o hid
      · exact hm id o hid
  exact hfold (allIds d h) ∅ (by intro id o hid; simp at hid) id o hview

/-- Every place of the index holds a record that reads. -/
def Leads (env : Env) (content : ObjectId → Object) (d : Dir)
    (index : BTreeMap ObjectId PackLoc) : Prop :=
  ∀ id loc, index[id]? = some loc → ∃ pack, d.packs[loc.stem]? = some pack ∧
    readPacked env pack loc.offset id = .ok (content id)

theorem addRows {stem : String} {pack : Bytes} (hpack : d.packs[stem]? = some pack)
    (rows : List IndexEntry)
    (hrows : ∀ row ∈ rows, readPacked env pack row.offset row.id = .ok (content row.id))
    (index : BTreeMap ObjectId PackLoc) (hindex : Leads env content d index) :
    Leads env content d (rows.foldl (addRow stem) index) ∧
      ∀ id, id ∈ rows.foldl (addRow stem) index ↔ id ∈ index ∨ ∃ row ∈ rows, row.id = id := by
  induction rows generalizing index with
  | nil => exact ⟨hindex, fun id => by simp⟩
  | cons row rows ih =>
    have hstep : Leads env content d (addRow stem index row) := by
      intro id loc hloc
      rw [addRow, Std.ExtTreeMap.getElem?_insertIfNew] at hloc
      split_ifs at hloc with hnew
      · cases hloc
        rw [Std.LawfulEqOrd.compare_eq_iff_eq] at hnew
        obtain ⟨rfl, -⟩ := hnew
        exact ⟨pack, hpack, hrows row List.mem_cons_self⟩
      · exact hindex id loc hloc
    obtain ⟨hleads, hmem⟩ := ih (fun r hr => hrows r (List.mem_cons_of_mem _ hr)) _ hstep
    refine ⟨hleads, fun id => (hmem id).trans ?_⟩
    rw [addRow, Std.ExtTreeMap.mem_insertIfNew, Std.LawfulEqOrd.compare_eq_iff_eq]
    simp only [List.exists_mem_cons_iff]
    tauto

theorem addStem_sound (hd : Sound env content d) (stem : String)
    (index : BTreeMap ObjectId PackLoc) (hindex : Leads env content d index) :
    ∃ next, addStem d index stem = .ok next ∧ Leads env content d next ∧
      ∀ id, id ∈ next ↔ id ∈ index ∨ InPack d stem id := by
  unfold addStem
  cases hpack : d.packs[stem]? with
  | none =>
    refine ⟨index, rfl, hindex, fun id => ⟨.inl, fun hin => hin.elim (fun h => h) (fun hp => ?_)⟩⟩
    exact absurd hp.1 (by simpa using hpack)
  | some pack =>
    cases hidx : d.idxs[stem]? with
    | none =>
      refine ⟨index, rfl, hindex,
        fun id => ⟨.inl, fun hin => hin.elim (fun h => h) (fun hp => ?_)⟩⟩
      obtain ⟨-, idx, hin, -⟩ := hp
      rw [hidx] at hin
      cases hin
    | some idx =>
      obtain ⟨rows, hparse, hrows⟩ := hd.packs stem pack idx hpack hidx
      obtain ⟨hleads, hmem⟩ := addRows hpack rows hrows index hindex
      refine ⟨rows.foldl (addRow stem) index, by simp only [hparse]; rfl, hleads, fun id => ?_⟩
      have hin : InPack d stem id ↔ ∃ row ∈ rows, row.id = id := by
        constructor
        · rintro ⟨-, idx', hidx', rows', hparse', hrow⟩
          rw [hidx] at hidx'
          cases hidx'
          rw [hparse] at hparse'
          cases hparse'
          exact hrow
        · intro hrow
          exact ⟨Std.ExtTreeMap.mem_iff_isSome_getElem?.mpr (by rw [hpack]; rfl), idx, hidx, rows,
            hparse, hrow⟩
      rw [hmem, hin]

theorem addStems_sound (hd : Sound env content d) (stems : List String)
    (index : BTreeMap ObjectId PackLoc) (hindex : Leads env content d index) :
    ∃ index', stems.foldlM (addStem d) index = .ok index' ∧ Leads env content d index' ∧
      ∀ id, id ∈ index' ↔ id ∈ index ∨ ∃ stem ∈ stems, InPack d stem id := by
  induction stems generalizing index with
  | nil => exact ⟨index, rfl, hindex, fun _ => by simp⟩
  | cons stem stems ih =>
    obtain ⟨next, hnext, hleads, hmem⟩ := addStem_sound hd stem index hindex
    obtain ⟨index', hrun, hleads', hmem'⟩ := ih next hleads
    refine ⟨index', ?_, hleads', fun id => ?_⟩
    · rw [List.foldlM_cons, hnext]
      exact hrun
    · rw [hmem', hmem, List.exists_mem_cons_iff, or_assoc]

/-- A sound directory loads, and the index finds exactly what its packs hold. -/
theorem Sound.loadIndex (hd : Sound env content d) :
    ∃ index, loadIndex env d = .ok index ∧ Leads env content d index ∧
      ∀ id, id ∈ index ↔ ∃ stem, InPack d stem id := by
  obtain ⟨index, hrun, hleads, hmem⟩ := addStems_sound hd (env.stems d) ∅ (by
    intro id loc hloc
    simp at hloc)
  refine ⟨index, hrun, hleads, fun id => (hmem id).trans ?_⟩
  constructor
  · rintro (hid | ⟨stem, -, hstem⟩)
    · simp at hid
    · exact ⟨stem, hstem⟩
  · rintro ⟨stem, hstem⟩
    obtain ⟨idx, hidx, -⟩ := hstem.2
    exact .inr ⟨stem, (env.stems_perm d).mem_iff.mpr
      ((BTreeMap.mem_keys_iff _ _).mpr ⟨idx, hidx⟩), hstem⟩

/-- A store that is opened now reads what has a copy left, and nothing else. -/
theorem Sound.readFresh_iff (hd : Sound env content d) (o : Object) :
    readFresh env d id = .ok o ↔ HasCopy d id ∧ o = content id := by
  obtain ⟨index, hload, hleads, hin⟩ := hd.loadIndex
  unfold readFresh
  rw [hload]
  change readDisk env d index id = _ ↔ _
  unfold readDisk
  cases hs : d.sharded[id]? with
  | some file =>
    have hloose : existingLoose d id = some file := by rw [existingLoose, hs]; rfl
    have hheld : HasCopy d id := .inl (Std.ExtTreeMap.mem_iff_isSome_getElem?.mpr (by rw [hs]; rfl))
    simp [hloose, hd.sharded id file hs, hheld, eq_comm]
  | none =>
    cases hf : d.flat[id]? with
    | some file =>
      have hloose : existingLoose d id = some file := by rw [existingLoose, hs, hf]; rfl
      have hheld : HasCopy d id :=
        .inr (.inl (Std.ExtTreeMap.mem_iff_isSome_getElem?.mpr (by rw [hf]; rfl)))
      simp [hloose, hd.flat id file hf, hheld, eq_comm]
    | none =>
      have hloose : existingLoose d id = none := by rw [existingLoose, hs, hf]; rfl
      have hheld : HasCopy d id ↔ id ∈ index := by
        rw [hin, HasCopy, Std.ExtTreeMap.mem_iff_isSome_getElem?,
          Std.ExtTreeMap.mem_iff_isSome_getElem?, hs, hf]
        simp
      rw [hloose, hheld]
      change readPackObject env d index id = _ ↔ _
      unfold readPackObject
      cases hloc : index[id]? with
      | none =>
        have hnot : id ∉ index := by simpa using hloc
        simp [hnot]
      | some loc =>
        have hmem : id ∈ index := Std.ExtTreeMap.mem_iff_isSome_getElem?.mpr (by rw [hloc]; rfl)
        obtain ⟨pack, hpack, hread⟩ := hleads id loc hloc
        simp [hpack, hread, hmem, eq_comm]

/-! ## Taking files away -/

/-- `d'` has no file that `d` does not have. -/
structure Less (d' d : Dir) : Prop where
  sharded : ∀ (id : ObjectId) (file : File), d'.sharded[id]? = some file →
    d.sharded[id]? = some file
  flat : ∀ (id : ObjectId) (file : File), d'.flat[id]? = some file → d.flat[id]? = some file
  packs : ∀ (stem : String) (pack : Bytes), d'.packs[stem]? = some pack →
    d.packs[stem]? = some pack
  idxs : ∀ (stem : String) (idx : Bytes), d'.idxs[stem]? = some idx → d.idxs[stem]? = some idx

theorem Sound.less {d' : Dir} (hd : Sound env content d) (hless : Less d' d) :
    Sound env content d' where
  sharded id file hf := hd.sharded id file (hless.sharded id file hf)
  flat id file hf := hd.flat id file (hless.flat id file hf)
  packs stem pack idx hp hi :=
    hd.packs stem pack idx (hless.packs stem pack hp) (hless.idxs stem idx hi)

theorem removeLoose_less (id : ObjectId) (d : Dir) : Less (removeLoose id d) d := by
  unfold removeLoose
  split_ifs
  · refine ⟨fun id' file hf => ?_, fun _ _ hf => hf, fun _ _ hf => hf, fun _ _ hf => hf⟩
    rw [BTreeMap.getElem?_erase] at hf
    split_ifs at hf
    exact hf
  · refine ⟨fun _ _ hf => hf, fun id' file hf => ?_, fun _ _ hf => hf, fun _ _ hf => hf⟩
    rw [BTreeMap.getElem?_erase] at hf
    split_ifs at hf
    exact hf

theorem removePack_less (stem : String) (d : Dir) : Less (removePack stem d) d := by
  refine ⟨fun _ _ hf => hf, fun _ _ hf => hf, fun stem' pack hf => ?_, fun _ _ hf => hf⟩
  rw [removePack, BTreeMap.getElem?_erase] at hf
  split_ifs at hf
  exact hf

theorem removeIdx_less (stem : String) (d : Dir) : Less (removeIdx stem d) d := by
  refine ⟨fun _ _ hf => hf, fun _ _ hf => hf, fun _ _ hf => hf, fun stem' idx hf => ?_⟩
  rw [removeIdx, BTreeMap.getElem?_erase] at hf
  split_ifs at hf
  exact hf

/-! ## A new pack -/

theorem readPacked_row (hz : env.z.Inverts) {before after : List Packed} {r : Packed} {o : Object}
    (hr : r.Fits env.z) (ho : r.Holds env.hash o)
    (hpack : (packHeader ++ recordsBytes (before ++ r :: after)).length < 2 ^ 63) :
    readPacked env (packHeader ++ recordsBytes (before ++ r :: after))
      (8 + (recordsBytes before).length + 32) r.id = .ok o := by
  have hsplit : packHeader ++ recordsBytes (before ++ r :: after) =
      (packHeader ++ (recordsBytes before ++ r.id.bytes)) ++
        (leBytes 4 r.compressed.length ++ (r.compressed ++ recordsBytes after)) := by
    simp only [recordsBytes, List.flatMap_append, List.flatMap_cons, Packed.bytes,
      List.append_assoc]
  have hfront : (packHeader ++ (recordsBytes before ++ r.id.bytes)).length =
      8 + (recordsBytes before).length + 32 := by
    rw [List.length_append, List.length_append, hr.width, ← Nat.add_assoc]
    rfl
  have hlen : ofLe ((leBytes 4 r.compressed.length ++
      (r.compressed ++ recordsBytes after)).take 4) = r.compressed.length := by
    rw [List.take_left' (ByteReader.length_leBytes _ _),
      ByteReader.ofLe_leBytes (by simpa using hr.short)]
  have htake : (leBytes 4 r.compressed.length ++ (r.compressed ++ recordsBytes after)).take
      (4 + r.compressed.length) = leBytes 4 r.compressed.length ++ (r.compressed ++ []) := by
    rw [List.append_nil, ← List.append_assoc]
    exact List.take_left' (by simp)
  have hshort : (leBytes 4 r.compressed.length ++ (r.compressed ++ [])).length < 2 ^ 63 := by
    rw [hsplit, List.length_append] at hpack
    simp only [List.length_append, ByteReader.length_leBytes, List.length_nil] at hpack ⊢
    omega
  obtain ⟨hin, -, hpayload⟩ := @Pack.record_inPack [] [] r.compressed hr.short
  simp only [List.nil_append, List.length_nil] at hin hpayload
  unfold readPacked
  rw [hsplit, List.drop_left' hfront]
  simp only [hlen]
  rw [if_neg (by simp only [List.length_append, ByteReader.length_leBytes]; omega), htake,
    Pack.readObjectAt, Pack.readRecordAt_inPack env.z env.hash r.id hshort hin (by simp),
    hpayload]
  change ((Pack.decodeAll env.z r.compressed).1 >>= fun _ => _) = _
  rw [Pack.decodeAll_eq hz hr.compressed]
  change Pack.stopped (Object.decodeVerified env.hash _ r.id r.canonical) = _
  rw [Pack.decodeVerified_holds ho]
  rfl

theorem compressed_of_addRecords {z : Zstd} {objects : List (ObjectId × Bytes)}
    {acc out : Bytes × List IndexEntry}
    (hrun : objects.foldlM (Pack.addRecord z) acc = .ok out) :
    ∀ p ∈ objects, ∃ c, z.encodeAll p.2 = .ok c := by
  induction objects generalizing acc with
  | nil => simp
  | cons p objects ih =>
    rw [List.foldlM_cons] at hrun
    obtain ⟨next, hstep, hrun⟩ := Fallible.bind_ok hrun
    intro q hq
    rcases List.mem_cons.mp hq with rfl | hq
    · unfold Pack.addRecord at hstep
      cases hc : z.encodeAll q.2 with
      | error e =>
        rw [hc] at hstep
        cases hstep
      | ok c => exact ⟨c, rfl⟩
    · exact ih hrun q hq

/-- The index of a new pack lists what the pack was made of, and leads to records that read. -/
theorem made_reads (henv : env.Lawful) {ids : List ObjectId} (hids : ids.Nodup)
    (hpackable : ∀ id ∈ ids, Packable env id (content id)) {pack idx : Bytes}
    (hbuild : buildPack env.z (encoded content ids) = .ok (pack, idx))
    (hpack : pack.length < 2 ^ 63) (hidx : idx.length < 2 ^ 63) :
    Indexes env content idx pack ∧ ∀ id ∈ ids, Lists idx id := by
  have hfst : (encoded content ids).map (·.1) = ids := by
    rw [encoded, List.map_map]
    exact List.map_id ids
  have hcompressed : ∀ p ∈ encoded content ids, ∃ c, env.z.encodeAll p.2 = .ok c := by
    obtain ⟨out, hrun, -⟩ := Fallible.bind_ok hbuild
    exact compressed_of_addRecords hrun
  have hinput : Pack.PackInput env.z env.hash (encoded content ids) := by
    refine ⟨by rwa [hfst], ?_, ?_, ?_⟩
    all_goals
      intro p hp
      obtain ⟨id, hid, rfl⟩ := List.mem_map.mp hp
    · exact (hpackable id hid).hashed
    · exact ⟨_, (hpackable id hid).decodes⟩
    · obtain ⟨c, hc⟩ := hcompressed _ hp
      exact ⟨c, hc, (hpackable id hid).short c hc⟩
  obtain ⟨rs, os, hobjects, hall⟩ := hinput.packed henv.width
  have hfits : ∀ r ∈ rs, r.Fits env.z := by
    intro r hr
    obtain ⟨o, ho⟩ := Pack.exists_of_forall₂_left hall hr
    exact ho.1
  have hids' : rs.map (·.id) = ids := by
    rw [← hfst, ← hobjects, List.map_map]
    rfl
  rw [← hobjects, Pack.buildPack_eq hfits] at hbuild
  cases hbuild
  have hperm := Pack.sortEntries_perm (rowsFrom 8 rs)
  have hrow : ∀ row ∈ Pack.sortEntries (rowsFrom 8 rs), ∃ before r after,
      rs = before ++ r :: after ∧
        row = ⟨r.id, 8 + (recordsBytes before).length + 32, r.compressed.length⟩ :=
    fun row hmem => Pack.mem_rowsFrom (hperm.mem_iff.mp hmem)
  have hparse : parseIndex (Pack.indexBytes (Pack.sortEntries (rowsFrom 8 rs))) =
      .ok (Pack.sortEntries (rowsFrom 8 rs)) := by
    refine Pack.parseIndex_indexBytes (fun row hmem => ?_) ?_ hidx
    · obtain ⟨before, r, after, rfl, rfl⟩ := hrow row hmem
      have hr := hfits r (by simp)
      refine ⟨hr.width, ?_, hr.short.trans (by decide)⟩
      have hlen : (recordsBytes (before ++ r :: after)).length =
          (recordsBytes before).length + (r.bytes.length + (recordsBytes after).length) := by
        simp only [recordsBytes, List.flatMap_append, List.flatMap_cons, List.length_append]
      rw [List.length_append, hlen, hr.length_bytes] at hpack
      change 8 + (recordsBytes before).length + 32 < 2 ^ 64
      omega
    · exact Pack.sortEntries_ascend (by rw [Pack.rowsFrom_ids, hids']; exact hids)
  refine ⟨⟨_, hparse, fun row hmem => ?_⟩, fun id hid => ⟨_, hparse, ?_⟩⟩
  · obtain ⟨before, r, after, hrs, rfl⟩ := hrow row hmem
    have hrin : r ∈ rs := by rw [hrs]; simp
    obtain ⟨o, hr, ho⟩ := Pack.exists_of_forall₂_left hall hrin
    have hmem : r.object ∈ encoded content ids := by
      rw [← hobjects]
      exact List.mem_map_of_mem hrin
    obtain ⟨id, hid, hobject⟩ := List.mem_map.mp hmem
    have hcanonical : r.canonical = (content r.id).encode := by
      have hi : id = r.id := congrArg Prod.fst hobject
      rw [← hi]
      exact (congrArg Prod.snd hobject).symm
    have hsame : o = content r.id := by
      have hdecodes := (hpackable id hid).decodes
      have hi : id = r.id := congrArg Prod.fst hobject
      rw [hi, ← hcanonical, ho.decodes] at hdecodes
      exact Except.ok.inj hdecodes
    rw [← hsame]
    subst hrs
    exact readPacked_row henv.inverts hr ho hpack
  · have hmem : id ∈ (Pack.sortEntries (rowsFrom 8 rs)).map (·.id) := by
      rw [(hperm.map _).mem_iff, Pack.rowsFrom_ids, hids']
      exact hid
    obtain ⟨row, hrow, hrid⟩ := List.mem_map.mp hmem
    exact ⟨row, hrow, hrid⟩

/-- Before its index is there, a new pack changes nothing that is read. -/
theorem Sound.putPack (hd : Sound env content d) {pack : Bytes} (hroom : Room env content d pack) :
    Sound env content (putPack (packName env pack) pack d) where
  sharded := hd.sharded
  flat := hd.flat
  packs stem old idx hold hidx := by
    rw [ObjectsDir.putPack, BTreeMap.getElem?_insert] at hold
    split_ifs at hold with hstem
    · cases hold
      subst hstem
      exact hroom.index idx hidx
    · exact hd.packs stem old idx hold hidx

theorem Sound.putIdx (hd : Sound env content d) {stem : String} {pack idx : Bytes}
    (hpack : d.packs[stem]? = some pack) (hindex : Indexes env content idx pack) :
    Sound env content (putIdx stem idx d) where
  sharded := hd.sharded
  flat := hd.flat
  packs stem' old idx' hold hidx := by
    rw [ObjectsDir.putIdx, BTreeMap.getElem?_insert] at hidx
    split_ifs at hidx with hstem
    · cases hidx
      subst hstem
      change d.packs[stem]? = some old at hold
      rw [hpack] at hold
      cases hold
      exact hindex
    · exact hd.packs stem' old idx' hold hidx

/-- Writing a pack over itself, or where there is none, takes no copy away. -/
theorem held_putPack {pack : Bytes} (hheld : HasCopy d id) (stem : String) :
    HasCopy (putPack stem pack d) id := by
  refine hheld.imp_right (Or.imp_right (fun hin => ?_))
  obtain ⟨stem', hmem, hidx⟩ := hin
  refine ⟨stem', ?_, hidx⟩
  rw [putPack, Std.ExtTreeMap.mem_insert]
  exact .inr hmem

end

/-! ## A small store -/

def firstTree : Object := .tree ⟨[]⟩

def firstTreeId : ObjectId := ⟨Object.testDigest firstTree.encode⟩

/-- Directories are read in the order of the names, and no call fails. -/
def firstEnv : Env where
  z := Pack.testZstd
  hash := Object.testDigest
  stems d := d.idxs.keys
  stems_perm _ := .refl _
  ids d := d.sharded.keys ++ d.flat.keys
  ids_perm _ := .refl _
  fates _ := .done

theorem firstEnv_lawful : firstEnv.Lawful := ⟨Pack.testZstd_inverts, Pack.length_testDigest⟩

end SrcControl.ObjectsDir
