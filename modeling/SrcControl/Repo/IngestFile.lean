import SrcControl.Core.BudgetedStore
import SrcControl.Core.PackRecords
import SrcControl.Repo.Transport

/-!
# Ingesting a pack file

The file is parsed twice: the first pass verifies every record, counts it against the limits and
writes nothing, the second puts what the receiver keeps into the store. What rebuilds the side
indexes afterwards is a parameter that may fail.
-/

namespace SrcControl

/-- What ends an ingest. -/
inductive IngestError
  | pack (stop : Checked.Stop CoreError)
  | connectionBudgetExceeded (msg : String)
  | other (e : Error)
deriving DecidableEq, Repr

/-- Decoded bytes that a pack makes the receiver hold; no limit is unlimited. -/
structure PackTally where
  limit : Option Nat
  countBlobs : Bool
  seen : Nat
deriving DecidableEq, Repr

namespace PackTally

/-- One record more, on a 64-bit word that saturates. -/
def add (t : PackTally) (obj : Object) : PackTally :=
  if t.countBlobs || obj.blobSize == 0 then
    { t with seen := min (t.seen + obj.encode.length) (2 ^ 64 - 1) }
  else t

def crossed (t : PackTally) : Bool := t.limit.any (fun l => decide (l < t.seen))

end PackTally

namespace Transport

open Checked (Stop)
open Pack (Zstd Callback parsePackReaderMax packRecords deliver deliverTo)
open Wire (Source)

/-- What pass 1 keeps. -/
structure Scan where
  records : Nat
  tally : Option PackTally
  overBudget : Bool
  dropped : List ObjectId
  seen : List ObjectId

/-- Pass 1 on one record. -/
def scanRecord (maxRecords : Option Nat) (skipTranscripts : Bool) : Callback Scan := fun id obj s =>
  let tally := s.tally.map (·.add obj)
  let s := { s with records := s.records + 1, tally := tally }
  if tally.any (·.crossed) then
    .error (.error (.packCorrupt "connection budget")) { s with overBudget := true }
  else if maxRecords.any (fun max => decide (max < s.records)) then
    .error (.error (.packCorrupt
      s!"pack holds more than the {maxRecords.getD 0} record(s) requested")) s
  else
    .ok () { s with
      dropped := if skipTranscripts && isTranscript obj then s.dropped ++ [id] else s.dropped
      seen := s.seen ++ [id] }

/-- What pass 2 has written. -/
structure Written where
  store : Store
  ids : List ObjectId

/-- Pass 2 on one record. -/
def writeRecord (idOf : Object → ObjectId) (dropped : List ObjectId) : Callback Written :=
  fun id obj w =>
    if keepsRecord dropped (id, obj) then
      let got := w.store.put idOf obj
      if got.1 ≠ id then
        .error (.error (.packCorrupt
          s!"packed object {id.short} landed under a different id ({got.1.short})"))
          { w with store := got.2 }
      else .ok () ⟨got.2, w.ids ++ [id]⟩
    else .ok () w

/-- `scan_pack_tally`: the pass of a receiver that has no store, and the tally it fills. -/
def scanPackTally (z : Zstd) (hash : Bytes → Bytes) (max : Nat) (file : Source)
    (tally : PackTally) : Except IngestError Unit × Option PackTally :=
  match parsePackReaderMax z hash max file (scanRecord none false)
      ⟨0, some tally, false, [], []⟩ with
  | .ok _ scan => (.ok (), scan.tally)
  | .error e scan =>
    (.error (if scan.overBudget then .connectionBudgetExceeded "" else .pack e), scan.tally)

structure IngestOutcome where
  result : Except IngestError (List ObjectId)
  store : Store
  tally : Option PackTally

/-- `ingest_pack_file_impl`. The file is opened once for each pass; `check` sees the ids that
pass 1 verified, and `index` is what follows the writes. -/
def ingestPackFileImpl (z : Zstd) (hash : Bytes → Bytes) (max : Nat) (first second : Source)
    (store : Store) (maxRecords : Option Nat) (check : List ObjectId → Except Error Unit)
    (skipTranscripts : Bool) (tally : Option PackTally)
    (index : Store → List ObjectId → Except Error Unit) : IngestOutcome :=
  match parsePackReaderMax z hash max first (scanRecord maxRecords skipTranscripts)
      ⟨0, tally, false, [], []⟩ with
  | .error e scan =>
    ⟨.error (if scan.overBudget then .connectionBudgetExceeded "" else .pack e), store, scan.tally⟩
  | .ok _ scan =>
    match check scan.seen with
    | .error e => ⟨.error (.other e), store, scan.tally⟩
    | .ok _ =>
      match parsePackReaderMax z hash max second
          (writeRecord (fun o => o.id hash) scan.dropped) ⟨store, []⟩ with
      | .error e w => ⟨.error (.pack e), w.store, scan.tally⟩
      | .ok _ w =>
        match index w.store w.ids with
        | .error e => ⟨.error (.other e), w.store, scan.tally⟩
        | .ok _ => ⟨.ok w.ids, w.store, scan.tally⟩

/-! ## Pass 1 -/

/-- At some record the tally is over its limit, or the records are more than were asked for. -/
def Crosses (maxRecords : Option Nat) : Nat → Option PackTally → List Record → Prop
  | _, _, [] => False
  | n, tally, rec :: rest =>
    (tally.map (·.add rec.2)).any (·.crossed) = true ∨
      maxRecords.any (fun max => decide (max < n + 1)) = true ∨
      Crosses maxRecords (n + 1) (tally.map (·.add rec.2)) rest

/-- The transcripts among the records of a receiver that skips them. -/
theorem droppedIds_cons (skip : Bool) (rec : Record) (rest : List Record) :
    droppedIds skip (rec :: rest) =
      (if skip && isTranscript rec.2 then [rec.1] else []) ++ droppedIds skip rest := by
  cases skip <;> cases h : isTranscript rec.2 <;> simp [droppedIds, h]

theorem deliver_scan {maxRecords : Option Nat} {skip : Bool} {recs : List Record} {s : Scan}
    (h : ¬ Crosses maxRecords s.records s.tally recs) :
    ∃ tally, deliver (scanRecord maxRecords skip) recs s = .ok ()
      ⟨s.records + recs.length, tally, s.overBudget, s.dropped ++ droppedIds skip recs,
        s.seen ++ recs.map (·.1)⟩ := by
  induction recs generalizing s with
  | nil =>
    refine ⟨s.tally, ?_⟩
    cases skip <;> simp [deliver, droppedIds, pure, EStateM.pure]
  | cons rec rest ih =>
    rw [Crosses, not_or, not_or] at h
    obtain ⟨hbudget, hmax, hrest⟩ := h
    have hstep : scanRecord maxRecords skip rec.1 rec.2 s = .ok ()
        ⟨s.records + 1, s.tally.map (·.add rec.2), s.overBudget,
          s.dropped ++ (if skip && isTranscript rec.2 then [rec.1] else []),
          s.seen ++ [rec.1]⟩ := by
      unfold scanRecord
      dsimp only
      rw [if_neg hbudget, if_neg hmax]
      split_ifs <;> simp
    obtain ⟨tally, htally⟩ := @ih ⟨s.records + 1, s.tally.map (·.add rec.2), s.overBudget,
      s.dropped ++ (if skip && isTranscript rec.2 then [rec.1] else []), s.seen ++ [rec.1]⟩ hrest
    refine ⟨tally, ?_⟩
    change EStateM.bind (scanRecord maxRecords skip rec.1 rec.2) _ s = _
    rw [EStateM.bind, hstep]
    refine htally.trans ?_
    rw [droppedIds_cons]
    simp only [List.append_assoc, List.map_cons, List.singleton_append, List.length_cons,
      Nat.add_assoc, Nat.add_comm 1]

theorem deliver_scan_crosses {maxRecords : Option Nat} {skip : Bool} {recs : List Record}
    {s : Scan} (h : Crosses maxRecords s.records s.tally recs) :
    ∃ e s', deliver (scanRecord maxRecords skip) recs s = .error e s' := by
  induction recs generalizing s with
  | nil => exact h.elim
  | cons rec rest ih =>
    change ∃ e s', EStateM.bind (scanRecord maxRecords skip rec.1 rec.2) _ s = _
    rw [EStateM.bind]
    cases hstep : scanRecord maxRecords skip rec.1 rec.2 s with
    | error e s' => exact ⟨e, s', rfl⟩
    | ok _ s' =>
      have hpast : s'.records = s.records + 1 ∧ s'.tally = s.tally.map (·.add rec.2) ∧
          Crosses maxRecords (s.records + 1) (s.tally.map (·.add rec.2)) rest := by
        unfold scanRecord at hstep
        dsimp only at hstep
        rw [Crosses] at h
        split_ifs at hstep with hbudget hmax
        all_goals cases hstep
        all_goals exact ⟨rfl, rfl, (h.resolve_left hbudget).resolve_left hmax⟩
      obtain ⟨hn, ht, hcross⟩ := hpast
      exact ih (by rw [hn, ht]; exact hcross)

/-! ## Pass 2 -/

/-- Pass 2 lands the records it keeps, one after the other. -/
theorem deliver_write {idOf : Object → ObjectId} {dropped : List ObjectId} {recs : List Record}
    {w : Written} (h : ∀ rec ∈ recs.filter (keepsRecord dropped), idOf rec.2 = rec.1) :
    ∃ s', (recs.filter (keepsRecord dropped)).foldlM (landRecord idOf) w.store = .ok s' ∧
      deliver (writeRecord idOf dropped) recs w =
        .ok () ⟨s', w.ids ++ (recs.filter (keepsRecord dropped)).map (·.1)⟩ := by
  induction recs generalizing w with
  | nil => exact ⟨w.store, rfl, by simp [deliver, pure, EStateM.pure]⟩
  | cons rec rest ih =>
    by_cases hkeep : keepsRecord dropped rec = true
    · rw [List.filter_cons_of_pos hkeep] at h ⊢
      have hid : (w.store.put idOf rec.2).1 = rec.1 :=
        put_spec.1.trans (h rec List.mem_cons_self)
      obtain ⟨s', hfold, hrun⟩ := @ih ⟨(w.store.put idOf rec.2).2, w.ids ++ [rec.1]⟩
        (fun r hr => h r (List.mem_cons_of_mem _ hr))
      have hstep : writeRecord idOf dropped rec.1 rec.2 w =
          .ok () ⟨(w.store.put idOf rec.2).2, w.ids ++ [rec.1]⟩ := by
        unfold writeRecord
        simp only [hkeep, if_true, hid, ne_eq, not_true_eq_false, if_false]
      refine ⟨s', ?_, ?_⟩
      · rw [List.foldlM_cons, landRecord, if_pos hid]
        exact hfold
      · change EStateM.bind (writeRecord idOf dropped rec.1 rec.2) _ w = _
        rw [EStateM.bind, hstep]
        refine hrun.trans ?_
        simp only [List.map_cons, List.append_assoc, List.singleton_append]
    · rw [List.filter_cons_of_neg hkeep] at h ⊢
      obtain ⟨s', hfold, hrun⟩ := @ih w h
      have hstep : writeRecord idOf dropped rec.1 rec.2 w = .ok () w := by
        unfold writeRecord
        simp only [hkeep, Bool.false_eq_true, if_false]
      refine ⟨s', hfold, ?_⟩
      change EStateM.bind (writeRecord idOf dropped rec.1 rec.2) _ w = _
      rw [EStateM.bind, hstep]
      exact hrun

/-- A record that lands under another id stops the writes. -/
theorem deliver_write_stops {idOf : Object → ObjectId} {dropped : List ObjectId}
    {recs : List Record} {w : Written}
    (h : ¬ ∀ rec ∈ recs.filter (keepsRecord dropped), idOf rec.2 = rec.1) :
    ∃ e w', deliver (writeRecord idOf dropped) recs w = .error e w' := by
  induction recs generalizing w with
  | nil => exact absurd (by simp) h
  | cons rec rest ih =>
    change ∃ e w', EStateM.bind (writeRecord idOf dropped rec.1 rec.2) _ w = _
    rw [EStateM.bind]
    cases hstep : writeRecord idOf dropped rec.1 rec.2 w with
    | error e w' => exact ⟨e, w', rfl⟩
    | ok _ w' =>
      refine ih (fun hall => h (fun r hr => ?_))
      by_cases hkeep : keepsRecord dropped rec = true
      · rw [List.filter_cons_of_pos hkeep] at hr
        rcases List.mem_cons.mp hr with rfl | hr
        · unfold writeRecord at hstep
          simp only [hkeep, if_true] at hstep
          split_ifs at hstep with hid
          exact put_spec.1.symm.trans (not_not.mp hid)
        · exact hall r hr
      · rw [List.filter_cons_of_neg hkeep] at hr
        exact hall r hr

/-! ## Both passes -/

section Ingest

variable {z : Zstd} {hash : Bytes → Bytes} {max : Nat} {first second : Source} {store : Store}
  {maxRecords : Option Nat} {check : List ObjectId → Except Error Unit} {skip : Bool}
  {tally : Option PackTally}

/-- A record fails verification, a limit is crossed, or the check vetoes. -/
def Refused (z : Zstd) (hash : Bytes → Bytes) (max : Nat) (file : Source)
    (maxRecords : Option Nat) (check : List ObjectId → Except Error Unit)
    (tally : Option PackTally) : Prop :=
  (packRecords z hash max file).2 ≠ none ∨
    Crosses maxRecords 0 tally (packRecords z hash max file).1 ∨
    ∃ e, check ((packRecords z hash max file).1.map (·.1)) = .error e

/-- The records of a pack, less the transcripts that are skipped and the signatures over them. -/
def wantedRecords (skip : Bool) (pack : List Record) : List Record :=
  pack.filter (fun rec => !(skip && (isTranscript rec.2 ||
    match rec.2 with
    | .signature sig => pack.any (fun t => t.1 == sig.snapshot && isTranscript t.2)
    | _ => false)))

theorem wantedRecords_false (pack : List Record) : wantedRecords false pack = pack := by
  simp [wantedRecords]

/-- The store holds what it held, and of what was put the objects whose id it did not hold. -/
def Stored (store : Store) (recs : List Record) (s' : Store) : Prop :=
  ∀ id o, s'.objects[id]? = some o ↔
    store.objects[id]? = some o ∨ store.objects[id]? = none ∧ (id, o) ∈ recs

/-- Nothing of a refused pack is stored; of any other the wanted records are, under their ids,
and those ids are handed on in the order of the pack. -/
structure AllOrNothing (store : Store) (refused : Prop) (recs : List Record)
    (index : Store → List ObjectId → Except Error Unit) (out : IngestOutcome) : Prop where
  nothing : refused → out.store = store ∧ ∃ e, out.result = .error e
  all : ¬ refused → Stored store recs out.store ∧
    out.result = match index out.store (recs.map (·.1)) with
      | .ok _ => .ok (recs.map (·.1))
      | .error e => .error (.other e)

theorem scan_refused (h : (packRecords z hash max first).2 ≠ none ∨
    Crosses maxRecords 0 tally (packRecords z hash max first).1) :
    ∃ e scan, parsePackReaderMax z hash max first (scanRecord maxRecords skip)
      ⟨0, tally, false, [], []⟩ = .error e scan := by
  rw [Pack.parsePackReaderMax_eq]
  change ∃ e scan, EStateM.bind (deliver _ _) _ _ = _
  by_cases hcross : Crosses maxRecords 0 tally (packRecords z hash max first).1
  · obtain ⟨e, scan, hrun⟩ := @deliver_scan_crosses maxRecords skip _
      ⟨0, tally, false, [], []⟩ hcross
    exact ⟨e, scan, by rw [EStateM.bind, hrun]⟩
  · obtain ⟨tally', hrun⟩ := @deliver_scan maxRecords skip _ ⟨0, tally, false, [], []⟩ hcross
    rw [EStateM.bind, hrun]
    obtain ⟨e, he⟩ := Option.ne_none_iff_exists'.mp (h.resolve_right hcross)
    rw [he]
    exact ⟨e, _, rfl⟩

theorem scan_ok (hend : (packRecords z hash max first).2 = none)
    (hcross : ¬ Crosses maxRecords 0 tally (packRecords z hash max first).1) :
    ∃ scan, parsePackReaderMax z hash max first (scanRecord maxRecords skip)
        ⟨0, tally, false, [], []⟩ = .ok () scan ∧
      scan.dropped = droppedIds skip (packRecords z hash max first).1 ∧
      scan.seen = (packRecords z hash max first).1.map (·.1) := by
  obtain ⟨tally', hrun⟩ := @deliver_scan maxRecords skip _ ⟨0, tally, false, [], []⟩ hcross
  refine ⟨⟨0 + (packRecords z hash max first).1.length, tally', false,
    droppedIds skip (packRecords z hash max first).1,
    (packRecords z hash max first).1.map (·.1)⟩, ?_, rfl, rfl⟩
  rw [Pack.parsePackReaderMax_eq]
  change EStateM.bind (deliver _ _) _ _ = _
  rw [EStateM.bind, hrun, hend]
  simp only [List.nil_append]
  rfl

/-- The pass without a store refuses what pass 1 does, but for the check. -/
theorem scanPackTally_ok_iff {t : PackTally} :
    (scanPackTally z hash max first t).1 = .ok () ↔
      (packRecords z hash max first).2 = none ∧
        ¬ Crosses none 0 (some t) (packRecords z hash max first).1 := by
  unfold scanPackTally
  constructor
  · intro hok
    by_contra hcond
    rw [not_and_or, not_not] at hcond
    obtain ⟨e, scan, hrun⟩ := @scan_refused z hash max first none false (some t) hcond
    rw [hrun] at hok
    cases hok
  · rintro ⟨hend, hcross⟩
    obtain ⟨scan, hrun, -, -⟩ := @scan_ok z hash max first none false (some t) hend hcross
    rw [hrun]

/-- A refused pack leaves the store as it was. -/
theorem ingest_refused (index : Store → List ObjectId → Except Error Unit)
    (h : Refused z hash max first maxRecords check tally) :
    (ingestPackFileImpl z hash max first second store maxRecords check skip tally index).store =
        store ∧
      ∃ e, (ingestPackFileImpl z hash max first second store maxRecords check skip tally
        index).result = .error e := by
  unfold ingestPackFileImpl
  by_cases hscan : (packRecords z hash max first).2 ≠ none ∨
      Crosses maxRecords 0 tally (packRecords z hash max first).1
  · obtain ⟨e, scan, hrun⟩ := @scan_refused z hash max first maxRecords skip tally hscan
    rw [hrun]
    exact ⟨rfl, _, rfl⟩
  · rw [not_or, not_not] at hscan
    obtain ⟨scan, hrun, -, hseen⟩ := @scan_ok z hash max first maxRecords skip tally hscan.1 hscan.2
    rcases h with hend | hcross | ⟨e, he⟩
    · exact absurd hscan.1 hend
    · exact absurd hcross hscan.2
    · rw [hrun]
      dsimp only
      rw [hseen, he]
      exact ⟨rfl, _, rfl⟩

/-- What is left of the ingest once pass 1 is over. -/
theorem ingest_accepted (index : Store → List ObjectId → Except Error Unit)
    (hfile : second.data = first.data)
    (h : ¬ Refused z hash max first maxRecords check tally) :
    ∃ scan, ingestPackFileImpl z hash max first second store maxRecords check skip tally index =
      match deliver (writeRecord (fun o => o.id hash)
          (droppedIds skip (packRecords z hash max first).1))
          (packRecords z hash max first).1 ⟨store, []⟩ with
      | .error e w => ⟨.error (.pack e), w.store, scan⟩
      | .ok _ w =>
        match index w.store w.ids with
        | .error e => ⟨.error (.other e), w.store, scan⟩
        | .ok _ => ⟨.ok w.ids, w.store, scan⟩ := by
  rw [Refused, not_or, not_or, not_not] at h
  obtain ⟨hend, hcross, hcheck⟩ := h
  obtain ⟨scan, hrun, hdropped, hseen⟩ :=
    @scan_ok z hash max first maxRecords skip tally hend hcross
  refine ⟨scan.tally, ?_⟩
  unfold ingestPackFileImpl
  rw [hrun]
  dsimp only
  rw [hseen, hdropped]
  cases hveto : check ((packRecords z hash max first).1.map (·.1)) with
  | error e => exact absurd ⟨e, hveto⟩ hcheck
  | ok _ =>
    have hpass : parsePackReaderMax z hash max second (writeRecord (fun o => o.id hash)
        (droppedIds skip (packRecords z hash max first).1)) ⟨store, []⟩ =
        deliver (writeRecord (fun o => o.id hash)
          (droppedIds skip (packRecords z hash max first).1))
          (packRecords z hash max first).1 ⟨store, []⟩ := by
      rw [Pack.parsePackReaderMax_eq, Pack.packRecords_congr hfile]
      change EStateM.bind (deliver _ _) _ _ = _
      rw [EStateM.bind, hend]
      cases deliver (writeRecord (fun o => o.id hash)
          (droppedIds skip (packRecords z hash max first).1))
          (packRecords z hash max first).1 ⟨store, []⟩ with
      | ok _ w => rfl
      | error e w => rfl
    dsimp only
    rw [hpass]

/-! ## What lands -/

/-- Records of one id are one object. -/
theorem packRecords_same (hinj : Function.Injective hash) {r r' : Record}
    (hr : r ∈ (packRecords z hash max first).1) (hr' : r' ∈ (packRecords z hash max first).1)
    (h : r.1 = r'.1) : r.2 = r'.2 := by
  obtain ⟨b, hb, hdec⟩ := Pack.packRecords_verified first r hr
  obtain ⟨b', hb', hdec'⟩ := Pack.packRecords_verified first r' hr'
  have hbytes : b = b' := hinj (congrArg ObjectId.bytes (hb.trans (h.trans hb'.symm)))
  rw [hbytes, hdec'] at hdec
  exact (Except.ok.inj hdec).symm

/-- Pass 2 tells the transcripts by their ids, which is the same. -/
theorem filter_keepsRecord {pack : List Record}
    (hsame : ∀ r ∈ pack, ∀ r' ∈ pack, r.1 = r'.1 → r.2 = r'.2) :
    pack.filter (keepsRecord (droppedIds skip pack)) = wantedRecords skip pack := by
  refine List.filter_congr (fun rec hrec => ?_)
  have hdropped : ∀ id, (droppedIds skip pack).contains id =
      (skip && pack.any (fun t => t.1 == id && isTranscript t.2)) := by
    intro id
    cases skip with
    | false => rfl
    | true =>
      rw [Bool.eq_iff_iff]
      simp only [droppedIds, if_true, List.contains_iff_mem, List.mem_map, List.mem_filter,
        Bool.true_and, List.any_eq_true, Bool.and_eq_true, beq_iff_eq]
      constructor
      · rintro ⟨t, ⟨ht, htr⟩, rfl⟩
        exact ⟨t, ht, rfl, htr⟩
      · rintro ⟨t, ht, rfl, htr⟩
        exact ⟨t, ⟨ht, htr⟩, rfl⟩
  have hown : (skip && pack.any (fun t => t.1 == rec.1 && isTranscript t.2)) =
      (skip && isTranscript rec.2) := by
    congr 1
    rw [Bool.eq_iff_iff, List.any_eq_true]
    constructor
    · rintro ⟨t, ht, hmatch⟩
      rw [Bool.and_eq_true, beq_iff_eq] at hmatch
      rw [← hsame t ht rec hrec hmatch.1]
      exact hmatch.2
    · intro htr
      exact ⟨rec, hrec, by simp [htr]⟩
  unfold keepsRecord
  rw [hdropped, hown]
  cases hobj : rec.2 with
  | signature sig =>
    simp only [hdropped, isTranscript, Bool.false_or, Bool.and_false]
  | _ => simp [isTranscript]

theorem stored_of_landed {recs : List Record} {s' : Store}
    (hsame : ∀ r ∈ recs, ∀ r' ∈ recs, r.1 = r'.1 → r.2 = r'.2) (h : Landed store recs s') :
    Stored store recs s' := by
  intro id o
  constructor
  · intro ho
    rcases h.source id o ho with hold | hnew
    · exact .inl hold
    · cases hs : store.objects[id]? with
      | none => exact .inr ⟨rfl, hnew⟩
      | some o' =>
        have hgrown := h.grows id o' hs
        rw [ho] at hgrown
        exact .inl hgrown.symm
  · rintro (hold | ⟨hnone, hnew⟩)
    · exact h.grows id o hold
    · obtain ⟨o', ho'⟩ := h.holds (id, o) hnew
      rcases h.source id o' ho' with hold | hother
      · rw [hnone] at hold
        cases hold
      · have hobj : o = o' := hsame (id, o) hnew (id, o') hother rfl
        rw [hobj]
        exact ho'

/-- Of a pack that is accepted and whose records encode back, the wanted records land. -/
theorem ingest_lands (index : Store → List ObjectId → Except Error Unit)
    (hfile : second.data = first.data)
    (hsame : ∀ r ∈ (packRecords z hash max first).1, ∀ r' ∈ (packRecords z hash max first).1,
      r.1 = r'.1 → r.2 = r'.2)
    (haccepted : ¬Refused z hash max first maxRecords check tally)
    (hlands : ∀ rec ∈ wantedRecords skip (packRecords z hash max first).1,
      rec.2.id hash = rec.1) :
    Stored store (wantedRecords skip (packRecords z hash max first).1)
        (ingestPackFileImpl z hash max first second store maxRecords check skip tally index).store ∧
      (ingestPackFileImpl z hash max first second store maxRecords check skip tally index).result =
        match index (ingestPackFileImpl z hash max first second store maxRecords check skip tally
            index).store ((wantedRecords skip (packRecords z hash max first).1).map (·.1)) with
        | .ok _ => .ok ((wantedRecords skip (packRecords z hash max first).1).map (·.1))
        | .error e => .error (.other e) := by
  have hfilter := @filter_keepsRecord skip _ hsame
  obtain ⟨scan, hrun⟩ := @ingest_accepted z hash max first second store maxRecords check skip
    tally index hfile haccepted
  rw [← hfilter] at hlands ⊢
  obtain ⟨s', hfold, hwrite⟩ := @deliver_write (fun o => o.id hash) _ _ ⟨store, []⟩ hlands
  have hsub : ∀ r ∈ (packRecords z hash max first).1.filter
      (keepsRecord (droppedIds skip (packRecords z hash max first).1)),
      r ∈ (packRecords z hash max first).1 := fun r hr => (List.mem_filter.mp hr).1
  have hstored := stored_of_landed (fun r hr r' hr' => hsame r (hsub r hr) r' (hsub r' hr'))
    (landRecords_landed hfold)
  rw [hrun, hwrite]
  dsimp only
  rw [List.nil_append]
  cases hindex : index s' (((packRecords z hash max first).1.filter
      (keepsRecord (droppedIds skip (packRecords z hash max first).1))).map (·.1)) with
  | ok _ => exact ⟨hstored, by simp only [hindex]⟩
  | error e => exact ⟨hstored, by simp only [hindex]⟩

/-- An ingest is all or nothing, and exact, when and only when the pack is refused or every record
that is written is encoded back to the bytes that its id is the hash of. -/
theorem ingest_allOrNothing_iff (hinj : Function.Injective hash)
    (hfile : second.data = first.data) :
    (∀ index, AllOrNothing store (Refused z hash max first maxRecords check tally)
        (wantedRecords skip (packRecords z hash max first).1) index
        (ingestPackFileImpl z hash max first second store maxRecords check skip tally index)) ↔
      Refused z hash max first maxRecords check tally ∨
        ∀ rec ∈ wantedRecords skip (packRecords z hash max first).1, rec.2.id hash = rec.1 := by
  have hsame : ∀ r ∈ (packRecords z hash max first).1, ∀ r' ∈ (packRecords z hash max first).1,
      r.1 = r'.1 → r.2 = r'.2 := fun r hr r' hr' => packRecords_same hinj hr hr'
  have hfilter := @filter_keepsRecord skip _ hsame
  constructor
  · intro h
    by_contra hcond
    rw [not_or] at hcond
    obtain ⟨haccepted, hlands⟩ := hcond
    obtain ⟨scan, hrun⟩ := @ingest_accepted z hash max first second store maxRecords check skip
      tally (fun _ _ => .ok ()) hfile haccepted
    rw [← hfilter] at hlands
    obtain ⟨e, w, hstop⟩ := @deliver_write_stops (fun o => o.id hash) _ _ ⟨store, []⟩ hlands
    have hall := ((h (fun _ _ => .ok ())).all haccepted).2
    rw [hrun, hstop] at hall
    cases hall
  · intro hcond index
    refine ⟨ingest_refused index, fun haccepted => ?_⟩
    exact ingest_lands index hfile hsame haccepted (hcond.resolve_left haccepted)

end Ingest

/-- A digest that is the bytes themselves. -/
def plainDigest (b : Bytes) : Bytes := b

/-- A blob whose encoding is as wide as a digest. -/
def wideBlob : Bytes := List.replicate 31 7

def packOf (recs : List Pack.Packed) : Source :=
  ⟨Pack.packHeader ++ Pack.recordsBytes recs, fun _ => 0, 0⟩

def blobPack : Source := packOf [⟨⟨0 :: wideBlob⟩, 0 :: wideBlob, [0x28, 0xb5, 0x2f, 0xfd, 0x00,
  0x58, 0x01, 0x01, 0x00] ++ 0 :: wideBlob⟩]

theorem ingest_allOrNothing_iff_blob :
    (∀ index, AllOrNothing ⟨∅⟩ (Refused Pack.testZstd plainDigest 256 blobPack (some 1)
        (fun _ => .ok ()) none)
        (wantedRecords false (packRecords Pack.testZstd plainDigest 256 blobPack).1) index
        (ingestPackFileImpl Pack.testZstd plainDigest 256 blobPack blobPack ⟨∅⟩ (some 1)
          (fun _ => .ok ()) false none index)) ↔
      Refused Pack.testZstd plainDigest 256 blobPack (some 1) (fun _ => .ok ()) none ∨
        ∀ rec ∈ wantedRecords false (packRecords Pack.testZstd plainDigest 256 blobPack).1,
          rec.2.id plainDigest = rec.1 :=
  ingest_allOrNothing_iff (fun _ _ h => h) rfl

/-- A blob, and behind it a tree with a byte past its entries, each under the hash of its bytes. -/
def strayPack : Source := packOf
  [⟨⟨Object.testDigest [0, 7]⟩, [0, 7],
      [0x28, 0xb5, 0x2f, 0xfd, 0x00, 0x58, 0x11, 0x00, 0x00, 0, 7]⟩,
    ⟨⟨Object.testDigest Object.strayTree⟩, Object.strayTree,
      [0x28, 0xb5, 0x2f, 0xfd, 0x00, 0x58, 0x31, 0x00, 0x00, 1, 0, 0, 0, 0, 7]⟩]

theorem strayPack_records : packRecords Pack.testZstd Object.testDigest 256 strayPack =
    ([(⟨Object.testDigest [0, 7]⟩, .blob [7]),
      (⟨Object.testDigest Object.strayTree⟩, .tree ⟨[]⟩)], none) := rfl

/-- Pass 1 takes every record, and pass 2 ends in an error with the blob in the store, and a tree
under an id that is not in the pack. -/
theorem strayPack_lands_partly :
    ¬ Refused Pack.testZstd Object.testDigest 256 strayPack none (fun _ => .ok ()) none ∧
      (∃ e, (ingestPackFileImpl Pack.testZstd Object.testDigest 256 strayPack strayPack ⟨∅⟩ none
        (fun _ => .ok ()) false none (fun _ _ => .ok ())).result = .error e) ∧
      (ingestPackFileImpl Pack.testZstd Object.testDigest 256 strayPack strayPack ⟨∅⟩ none
        (fun _ => .ok ()) false none (fun _ _ => .ok ())).store.objects[
          (⟨Object.testDigest [0, 7]⟩ : ObjectId)]? = some (.blob [7]) := by
  refine ⟨?_, ⟨_, rfl⟩, by rfl⟩
  rw [Refused, strayPack_records]
  rintro (h | h | ⟨e, h⟩)
  · exact h rfl
  · simp [Crosses] at h
  · cases h

end Transport

end SrcControl
