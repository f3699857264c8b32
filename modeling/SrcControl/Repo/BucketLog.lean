import SrcControl.Repo.BucketTransport
import SrcControl.Repo.WalExact

/-!
# The log in the bucket

The manifest names the head of one chain of entries, each behind its parent, and a checkpoint is
the fold of a part of the chain from its start. Keys other than the manifest are written once, so a
read that has seen a manifest finds the chain of that manifest whenever its other reads happen.
-/

namespace SrcControl.BucketTransport

open Checked (Stop)
open Objio (Path Fetched mapApply)
open WalFormat (Manifest RefUpdate LogEntry Checkpoint MAX_LIST)

/-! ## Keys -/

theorem ofDigitChars_padded (n : Nat) : Nat.ofDigitChars 10 (padded n) 0 = n := by
  rw [padded, Nat.ofDigitChars_append, Nat.ofDigitChars_replicate_zero, Nat.mul_zero]
  exact Nat.ofDigitChars_ten_toDigits

theorem padded_injective : Function.Injective padded := by
  intro a b h
  rw [← ofDigitChars_padded a, h, ofDigitChars_padded]

theorem logKey_injective : Function.Injective logKey := fun _ _ h =>
  UInt64.toNat_inj.mp (padded_injective (List.append_cancel_left h))

theorem checkpointKey_injective : Function.Injective checkpointKey := fun _ _ h =>
  UInt64.toNat_inj.mp (padded_injective (List.append_cancel_left h))

@[simp] theorem head_manifest : MANIFEST.head? = some 'm' := rfl

@[simp] theorem head_logKey (seq : UInt64) : (logKey seq).head? = some 'l' := rfl

@[simp] theorem head_checkpointKey (seq : UInt64) : (checkpointKey seq).head? = some 'c' := rfl

@[simp] theorem head_packKey (hash : String) : (packKey hash).head? = some 'p' := rfl

@[simp] theorem head_idxKey (hash : String) : (idxKey hash).head? = some 'p' := rfl

/-- Keys of two kinds differ in their first letter. -/
theorem key_ne {k k' : Path} {a b : Char} (hk : k.head? = some a) (hk' : k'.head? = some b)
    (hab : a ≠ b) : k ≠ k' := by
  rintro rfl
  exact hab (Option.some.inj (hk.symm.trans hk'))

/-! ## The chain -/

/-- The tips that the entries leave. -/
def refsOf (log : List LogEntry) : BTreeMap String ObjectId :=
  log.foldl (fun refs e => e.updates.foldl (fun refs u => refs.insert u.branch u.new) refs) ∅

def packsOf (log : List LogEntry) : List String := log.flatMap (·.packs)

def headOf (log : List LogEntry) : UInt64 := (log.getLast?.map (·.seq)).getD 0

/-- Every entry names the one before it as its parent, has a higher number, and moves one branch
from where the entries before it have left it. -/
inductive Chained : List LogEntry → Prop
  | nil : Chained []
  | snoc {log : List LogEntry} {e : LogEntry} (h : Chained log) (hparent : e.parentSeq = headOf log)
      (hlt : headOf log < e.seq) (hfits : e.Fits)
      (hmoves : ∃ branch tip, e.updates = [⟨branch, (refsOf log)[branch]?, tip⟩]) :
      Chained (log ++ [e])

@[simp] theorem headOf_nil : headOf [] = 0 := rfl

@[simp] theorem headOf_snoc (log : List LogEntry) (e : LogEntry) : headOf (log ++ [e]) = e.seq := by
  simp [headOf]

theorem refsOf_snoc (log : List LogEntry) (e : LogEntry) : refsOf (log ++ [e]) =
    e.updates.foldl (fun refs u => refs.insert u.branch u.new) (refsOf log) := by
  simp [refsOf]

theorem mem_packsOf_snoc {log : List LogEntry} {e : LogEntry} {h : String} :
    h ∈ packsOf (log ++ [e]) ↔ h ∈ packsOf log ∨ h ∈ e.packs := by
  simp [packsOf]

theorem packsOf_mono {pre log : List LogEntry} (h : pre <+: log) {p : String}
    (hp : p ∈ packsOf pre) : p ∈ packsOf log := by
  obtain ⟨post, rfl⟩ := h
  rw [packsOf, List.flatMap_append]
  exact List.mem_append_left _ hp

namespace Chained

variable {log pre : List LogEntry}

theorem of_prefix (h : Chained log) (hpre : pre <+: log) : Chained pre := by
  induction h with
  | nil =>
    rw [List.prefix_nil.mp hpre]
    exact .nil
  | @snoc log e h hparent hlt hfits hmoves ih =>
    rcases List.prefix_concat_iff.mp hpre with rfl | hpre
    · exact .snoc h hparent hlt hfits hmoves
    · exact ih hpre

/-- Along the chain the head moves up. -/
theorem head_lt (h : Chained log) (hpre : pre <+: log) (hne : pre ≠ log) :
    headOf pre < headOf log := by
  induction h with
  | nil => exact absurd (List.prefix_nil.mp hpre) hne
  | @snoc log e h hparent hlt hfits hmoves ih =>
    rw [headOf_snoc]
    rcases List.prefix_concat_iff.mp hpre with rfl | hpre
    · exact absurd rfl hne
    · by_cases heq : pre = log
      · rwa [heq]
      · exact UInt64.lt_trans (ih hpre heq) hlt

theorem eq_of_head (h : Chained log) (hpre : pre <+: log) (hhead : headOf pre = headOf log) :
    pre = log := by
  by_contra hne
  have hlt := h.head_lt hpre hne
  rw [hhead] at hlt
  exact UInt64.lt_irrefl _ hlt

/-- The head tells how far along the chain a part of it goes. -/
theorem prefix_unique {pre' : List LogEntry} (h : Chained log) (hpre : pre <+: log)
    (hpre' : pre' <+: log) (hhead : headOf pre = headOf pre') : pre = pre' := by
  rcases List.prefix_or_prefix_of_prefix hpre hpre' with hle | hle
  · exact (h.of_prefix hpre').eq_of_head hle hhead
  · exact ((h.of_prefix hpre).eq_of_head hle hhead.symm).symm

theorem last {e : LogEntry} (h : Chained (log ++ [e])) :
    e.parentSeq = headOf log ∧ headOf log < e.seq ∧ e.Fits := by
  generalize hl : log ++ [e] = l at h
  cases h with
  | nil => simp at hl
  | snoc h hparent hlt hfits hmoves =>
    obtain ⟨rfl, heq⟩ := List.append_inj' hl rfl
    obtain rfl := List.singleton_inj.mp heq
    exact ⟨hparent, hlt, hfits⟩

end Chained

/-! ## What stands in the bucket -/

/-- A checkpoint of a part of the chain. -/
structure Folds (pre : List LogEntry) (c : Checkpoint) : Prop where
  fits : c.Fits
  seq : c.seq = headOf pre
  refs : c.refs = (refsOf pre).toList
  packs : ∀ p, p ∈ c.packs ↔ p ∈ packsOf pre

/-- A manifest that names the head of a part of the chain, and its checkpoint. -/
structure Manifests (b : Path → Option Bytes) (pre : List LogEntry) (m : Manifest) : Prop where
  fits : m.Fits
  head : m.headSeq = headOf pre
  checkpoint : ∃ base, base <+: pre ∧ headOf base = m.checkpointSeq ∧
    (base ≠ [] → (b (checkpointKey m.checkpointSeq)).isSome)

structure Stands (b : Path → Option Bytes) (log : List LogEntry) : Prop where
  chained : Chained log
  entries : ∀ e ∈ log, b (logKey e.seq) = some e.encode
  idx : ∀ p ∈ packsOf log, (b (idxKey p)).isSome
  unborn : log = [] → b MANIFEST = none
  manifest : log ≠ [] → ∃ m, b MANIFEST = some m.encode ∧ Manifests b log m
  checkpoints : ∀ s x, b (checkpointKey s) = some x →
    ∃ pre c, pre <+: log ∧ headOf pre = s ∧ Folds pre c ∧ x = c.encode

/-- A bucket that has only gained keys, the manifest apart. -/
def Keeps (b b' : Path → Option Bytes) : Prop := ∀ k x, k ≠ MANIFEST → b k = some x → b' k = some x

theorem Keeps.refl (b : Path → Option Bytes) : Keeps b b := fun _ _ _ h => h

theorem Keeps.isSome {b b' : Path → Option Bytes} (h : Keeps b b') {k : Path} (hk : k ≠ MANIFEST)
    (hs : (b k).isSome) : (b' k).isSome := by
  obtain ⟨x, hx⟩ := Option.isSome_iff_exists.mp hs
  rw [h k x hk hx]
  rfl

theorem checkpointKey_ne (s : UInt64) : checkpointKey s ≠ MANIFEST :=
  key_ne (head_checkpointKey s) head_manifest (by decide)

theorem logKey_ne (s : UInt64) : logKey s ≠ MANIFEST :=
  key_ne (head_logKey s) head_manifest (by decide)

theorem idxKey_ne (p : String) : idxKey p ≠ MANIFEST :=
  key_ne (head_idxKey p) head_manifest (by decide)

theorem packKey_ne (p : String) : packKey p ≠ MANIFEST :=
  key_ne (head_packKey p) head_manifest (by decide)

theorem Manifests.mono {b b' : Path → Option Bytes} {pre : List LogEntry} {m : Manifest}
    (h : Manifests b pre m) (hb : Keeps b b') : Manifests b' pre m where
  fits := h.fits
  head := h.head
  checkpoint := by
    obtain ⟨base, hpre, hhead, hsome⟩ := h.checkpoint
    exact ⟨base, hpre, hhead, fun hne => hb.isSome (checkpointKey_ne _) (hsome hne)⟩

/-- The manifest can stand behind a longer chain too, with the new head. -/
theorem Manifests.extend {b : Path → Option Bytes} {pre log : List LogEntry} {m : Manifest}
    (h : Manifests b pre m) (hpre : pre <+: log) {headBranch : String}
    (hbranch : WalFormat.FitsString WalFormat.MAX_NAME headBranch) :
    Manifests b log ⟨headOf log, m.checkpointSeq, headBranch⟩ where
  fits := ⟨hbranch⟩
  head := rfl
  checkpoint := by
    obtain ⟨base, hbase, hhead, hsome⟩ := h.checkpoint
    exact ⟨base, hbase.trans hpre, hhead, hsome⟩

/-! ## Records -/

theorem manifest_decode {m : Manifest} (h : m.Fits) : Manifest.decode m.encode = .ok m :=
  (WalFormat.exact_of_reads rfl WalFormat.Cursor.manifest_reads
    WalFormat.Cursor.manifest_sound).decode_encode m h

theorem logEntry_decode {e : LogEntry} (h : e.Fits) : LogEntry.decode e.encode = .ok e :=
  (WalFormat.exact_of_reads rfl WalFormat.Cursor.logEntry_reads
    WalFormat.Cursor.logEntry_sound).decode_encode e h

theorem checkpoint_decode {c : Checkpoint} (h : c.Fits) : Checkpoint.decode c.encode = .ok c :=
  (WalFormat.exact_of_reads rfl WalFormat.Cursor.checkpoint_reads
    WalFormat.Cursor.checkpoint_sound).decode_encode c h

theorem manifest_encode_inj {m m' : Manifest} (h : m.Fits) (h' : m'.Fits)
    (heq : m.encode = m'.encode) : m = m' :=
  Except.ok.inj ((manifest_decode h).symm.trans ((congrArg _ heq).trans (manifest_decode h')))

theorem capped_bind {α : Type} {what : String} {x : Bytes} {f : Bytes → Except (Stop Error) α}
    {r : α} (h : capped what x >>= f = .ok r) : f x = .ok r := by
  unfold capped at h
  split_ifs at h with hlen
  · cases h
  · exact h

/-! ## Folding -/

theorem insertRef_ok {refs refs' : BTreeMap String ObjectId} {branch : String} {id : ObjectId}
    (h : insertRef refs branch id = .ok refs') : refs' = refs.insert branch id := by
  unfold insertRef at h
  split at h
  · cases h
  · exact (Except.ok.inj h).symm

/-- A fold that checks the names has inserted all of them. -/
theorem foldlM_insertRef {α : Type} (name : α → String) (tip : α → ObjectId) {xs : List α}
    {refs refs' : BTreeMap String ObjectId}
    (h : xs.foldlM (fun refs x => insertRef refs (name x) (tip x)) refs = .ok refs') :
    refs' = xs.foldl (fun refs x => refs.insert (name x) (tip x)) refs := by
  induction xs generalizing refs with
  | nil => exact (Except.ok.inj h).symm
  | cons x xs ih =>
    rw [List.foldlM_cons] at h
    cases hx : insertRef refs (name x) (tip x) with
    | error e =>
      rw [hx] at h
      cases h
    | ok refs₁ =>
      rw [hx] at h
      rw [List.foldl_cons, ← insertRef_ok hx]
      exact ih h

/-- A start of the chain that has been folded. -/
structure Seeds (base : List LogEntry) (s : Fold) : Prop where
  refs : s.refs = refsOf base
  packs : ∀ p, p ∈ s.packs ↔ p ∈ packsOf base

theorem seeds_nil : Seeds [] ⟨∅, []⟩ := ⟨rfl, fun _ => Iff.rfl⟩

theorem seedOf_seeds {base : List LogEntry} {c : Checkpoint} {s : Fold} (h : Folds base c)
    (hs : seedOf c = .ok s) : Seeds base s := by
  unfold seedOf at hs
  cases hr : c.refs.foldlM (fun refs r => insertRef refs r.1 r.2) (∅ : BTreeMap _ _) with
  | error e =>
    rw [hr] at hs
    cases hs
  | ok refs =>
    rw [hr] at hs
    obtain rfl := Except.ok.inj hs
    refine ⟨?_, h.packs⟩
    have hfold := foldlM_insertRef (fun r : String × ObjectId => r.1) (·.2) hr
    rw [h.refs] at hfold
    have hmap := BTreeMap.ofList_toList (refsOf base)
    rw [BTreeMap.ofList, Std.ExtTreeMap.ofList_eq_foldl] at hmap
    exact hfold.trans hmap

theorem foldEntry_seeds {base : List LogEntry} {s s' : Fold} {e : LogEntry} (h : Seeds base s)
    (hs : foldEntry s e = .ok s') : Seeds (base ++ [e]) s' := by
  unfold foldEntry at hs
  cases hr : e.updates.foldlM (fun refs u => insertRef refs u.branch u.new) s.refs with
  | error e =>
    rw [hr] at hs
    cases hs
  | ok refs =>
    rw [hr] at hs
    obtain rfl := Except.ok.inj hs
    refine ⟨?_, fun p => ?_⟩
    · rw [refsOf_snoc, ← h.refs]
      exact foldlM_insertRef (fun u : RefUpdate => u.branch) (·.new) hr
    · rw [mem_packsOf_snoc, ← h.packs, List.mem_append]

theorem foldlM_foldEntry {base entries : List LogEntry} {s s' : Fold} (h : Seeds base s)
    (hs : entries.foldlM foldEntry s = .ok s') : Seeds (base ++ entries) s' := by
  induction entries generalizing base s with
  | nil =>
    obtain rfl := Except.ok.inj hs
    rwa [List.append_nil]
  | cons e entries ih =>
    rw [List.foldlM_cons] at hs
    cases he : foldEntry s e with
    | error st =>
      rw [he] at hs
      cases hs
    | ok s₁ =>
      rw [he] at hs
      rw [List.append_cons]
      exact ih (foldEntry_seeds h he) hs

/-! ## A read of the log -/

section Reads

variable {Tag : Type} (tagOf : Bytes → Tag)

/-- A view of a part of the chain. -/
structure Shows (b : Path → Option Bytes) (pre : List LogEntry) (v : WalView Tag) : Prop where
  tag : v.tag = tagOf v.manifest.encode
  manifests : Manifests b pre v.manifest
  refs : v.refs = refsOf pre
  packs : ∀ p, p ∈ v.packs ↔ p ∈ packsOf pre

/-- A view, or its absence, of a part of the chain. -/
def ViewAt (b : Path → Option Bytes) (pre : List LogEntry) : Option (WalView Tag) → Prop
  | none => pre = []
  | some v => pre ≠ [] ∧ Shows tagOf b pre v

/-- A `refresh_once` that has read the manifest of a part of the chain, and how far it has come. -/
def ReadingAt (b : Path → Option Bytes) (pre : List LogEntry) : Reading Tag → Prop
  | .manifest => False
  | .checkpoint tag m => pre ≠ [] ∧ tag = tagOf m.encode ∧ Manifests b pre m ∧ m.checkpointSeq ≠ 0
  | .log tag m seed seq entries => pre ≠ [] ∧ tag = tagOf m.encode ∧ Manifests b pre m ∧
    ∃ base mid, pre = base ++ mid ++ entries ∧ mid ≠ [] ∧ headOf base = m.checkpointSeq ∧
      headOf (base ++ mid) = seq ∧ Seeds base seed
  | .index v hash rest => (pre ≠ [] ∧ Shows tagOf b pre v) ∧ ∀ p ∈ hash :: rest, p ∈ packsOf pre

def TurnAt (b : Path → Option Bytes) (pre : List LogEntry) : Turn Tag → Prop
  | .more r => ReadingAt tagOf b pre r
  | .read view => ViewAt tagOf b pre view
  | .failed sawAbsent _ _ => sawAbsent = false

variable {tagOf} {b b' : Path → Option Bytes} {log pre : List LogEntry}

theorem Shows.mono {v : WalView Tag} (h : Shows tagOf b pre v) (hb : Keeps b b') :
    Shows tagOf b' pre v := ⟨h.tag, h.manifests.mono hb, h.refs, h.packs⟩

theorem ReadingAt.mono {r : Reading Tag} (h : ReadingAt tagOf b pre r) (hb : Keeps b b') :
    ReadingAt tagOf b' pre r := by
  cases r with
  | manifest => exact h.elim
  | checkpoint tag m => exact ⟨h.1, h.2.1, h.2.2.1.mono hb, h.2.2.2⟩
  | log tag m seed seq entries => exact ⟨h.1, h.2.1, h.2.2.1.mono hb, h.2.2.2⟩
  | index v hash rest => exact ⟨⟨h.1.1, h.1.2.mono hb⟩, h.2⟩

theorem nextIdx_at {v : WalView Tag} {rest : List String} (hne : pre ≠ [])
    (h : Shows tagOf b pre v) (hrest : ∀ p ∈ rest, p ∈ packsOf pre) :
    TurnAt tagOf b pre (Reading.nextIdx v rest) := by
  cases rest with
  | nil => exact ⟨hne, h⟩
  | cons hash rest => exact ⟨⟨hne, h⟩, hrest⟩

theorem foldTail_at {tag : Tag} {m : Manifest} {base entries : List LogEntry} {seed : Fold}
    (hne : pre ≠ []) (htag : tag = tagOf m.encode) (hm : Manifests b pre m)
    (hpre : pre = base ++ entries) (hseed : Seeds base seed) :
    TurnAt tagOf b pre (Reading.foldTail tag m seed entries) := by
  unfold Reading.foldTail
  cases hs : entries.foldlM foldEntry seed with
  | error st => rfl
  | ok s =>
    have hseeds := foldlM_foldEntry hseed hs
    rw [← hpre] at hseeds
    exact nextIdx_at hne ⟨htag, hm, hseeds.refs, hseeds.packs⟩ (fun p hp => (hseeds.packs p).mp hp)

theorem walk_at {tag : Tag} {m : Manifest} {base mid entries : List LogEntry} {seed : Fold}
    (hchain : Chained pre) (hne : pre ≠ []) (htag : tag = tagOf m.encode) (hm : Manifests b pre m)
    (hpre : pre = base ++ mid ++ entries) (hbase : headOf base = m.checkpointSeq)
    (hseed : Seeds base seed) :
    TurnAt tagOf b pre (Reading.walk tag m seed (headOf (base ++ mid)) entries) := by
  have hprefix : base ++ mid <+: pre := hpre ▸ List.prefix_append _ _
  unfold Reading.walk
  split_ifs with heq hlt
  · have hmid := (hchain.of_prefix hprefix).eq_of_head (List.prefix_append base mid)
      (hbase.trans heq.symm)
    rw [← hmid] at hpre
    exact foldTail_at hne htag hm hpre hseed
  · rfl
  · refine ⟨hne, htag, hm, base, mid, hpre, fun hmid => heq ?_, hbase, rfl, hseed⟩
    rw [hmid, List.append_nil, hbase]

/-- What the bucket answers to a read of a key that is there. -/
theorem get_answer [DecidableEq Tag] {k : Path} {x : Bytes} (h : b k = some x) :
    (mapApply tagOf b (.get k none)).2 = .fetched (.new x (tagOf x)) := by
  rw [mapApply, h]
  exact congrArg _ (if_neg (by simp))

theorem readEntry_at {tag : Tag} {m : Manifest} {seed : Fold} {seq : UInt64}
    {entries : List LogEntry} (hb : Stands b log) (hpre : pre <+: log)
    (h : ReadingAt tagOf b pre (.log tag m seed seq entries)) {x : Bytes}
    (hx : b (logKey seq) = some x) :
    TurnAt tagOf b pre (Reading.readEntry tag m seed seq entries x) := by
  obtain ⟨hne, htag, hm, base, mid, hsplit, hmid, hbase, hseq, hseed⟩ := h
  obtain ⟨mid, e, rfl⟩ := List.eq_nil_or_concat mid |>.resolve_left hmid
  rw [List.concat_eq_append, ← List.append_assoc] at hsplit hseq
  have hchain := hb.chained.of_prefix hpre
  have hlast : Chained (base ++ mid ++ [e]) := hchain.of_prefix (hsplit ▸ List.prefix_append _ _)
  obtain ⟨hparent, hlt, hfits⟩ := hlast.last
  rw [headOf_snoc] at hseq
  subst hseq
  have hmem : e ∈ log := hpre.subset (hsplit ▸ by simp)
  rw [hb.entries e hmem, Option.some.injEq] at hx
  subst hx
  unfold Reading.readEntry
  cases hd : capped "log entry" e.encode >>= LogEntry.decode with
  | error st => rfl
  | ok e' =>
    have heq := Except.ok.inj ((logEntry_decode hfits).symm.trans (capped_bind hd))
    subst heq
    have hge : ¬e.parentSeq ≥ e.seq := by
      rw [hparent]
      exact UInt64.not_le.mpr hlt
    simp only [ne_eq, not_true_eq_false, if_false, hge]
    rw [hparent]
    refine walk_at hchain hne htag hm ?_ hbase hseed
    rw [hsplit, List.append_assoc, List.singleton_append]

theorem readCheckpoint_at {tag : Tag} {m : Manifest} (hb : Stands b log) (hpre : pre <+: log)
    (h : ReadingAt tagOf b pre (.checkpoint tag m)) {x : Bytes}
    (hx : b (checkpointKey m.checkpointSeq) = some x) :
    TurnAt tagOf b pre (Reading.readCheckpoint tag m x) := by
  obtain ⟨hne, htag, hm, -⟩ := h
  obtain ⟨base, c, hbase, hhead, hfolds, rfl⟩ := hb.checkpoints _ _ hx
  obtain ⟨base', hbase', hhead', -⟩ := hm.checkpoint
  have hsame := hb.chained.prefix_unique hbase (hbase'.trans hpre) (hhead.trans hhead'.symm)
  subst hsame
  unfold Reading.readCheckpoint
  cases hd : capped "checkpoint" c.encode >>= Checkpoint.decode with
  | error st => rfl
  | ok c' =>
    have heq := Except.ok.inj ((checkpoint_decode hfolds.fits).symm.trans (capped_bind hd))
    subst heq
    have hseq : c.seq = m.checkpointSeq := hfolds.seq.trans hhead
    simp only [hseq, ne_eq, not_true_eq_false, if_false]
    cases hs : seedOf c with
    | error st => rfl
    | ok seed =>
      obtain ⟨mid, hmid⟩ := hbase'
      have hwhole : m.headSeq = headOf (base ++ mid) := hm.head.trans (congrArg headOf hmid.symm)
      simp only [hwhole]
      exact walk_at (hb.chained.of_prefix hpre) hne htag hm (by rw [hmid, List.append_nil]) hhead
        (seedOf_seeds hfolds hs)

theorem readIdx_at {v : WalView Tag} {hash : String} {rest : List String}
    (h : ReadingAt tagOf b pre (.index v hash rest)) (x : Bytes) :
    TurnAt tagOf b pre (Reading.readIdx v hash rest x) := by
  unfold Reading.readIdx
  cases capped "pack idx" x with
  | error st => rfl
  | ok x =>
    simp only
    split
    · rfl
    · rfl
    · rfl
    · exact nextIdx_at h.1.1 ⟨h.1.2.tag, h.1.2.manifests, h.1.2.refs, h.1.2.packs⟩
        (fun p hp => h.2 p (List.mem_cons_of_mem _ hp))

variable [DecidableEq Tag]

/-- A read behind the manifest goes on in the same part of the chain, and never finds a key of it
absent. -/
theorem turn_at {r : Reading Tag} {cached : Option Tag} {view : Option (WalView Tag)}
    (hb : Stands b log) (hpre : pre <+: log) (h : ReadingAt tagOf b pre r) :
    TurnAt tagOf b pre (r.turn view (mapApply tagOf b (r.op cached)).2) := by
  cases r with
  | manifest => exact h.elim
  | checkpoint tag m =>
    obtain ⟨base, hbase, hhead, hsome⟩ := h.2.2.1.checkpoint
    have hne : base ≠ [] := by
      rintro rfl
      exact h.2.2.2 hhead.symm
    obtain ⟨x, hx⟩ := Option.isSome_iff_exists.mp (hsome hne)
    rw [Reading.op, get_answer hx]
    exact readCheckpoint_at hb hpre h hx
  | log tag m seed seq entries =>
    obtain ⟨base, mid, hsplit, hmid, -, hseq, -⟩ := h.2.2.2
    obtain ⟨mid, e, rfl⟩ := List.eq_nil_or_concat mid |>.resolve_left hmid
    rw [List.concat_eq_append, ← List.append_assoc] at hsplit hseq
    rw [headOf_snoc] at hseq
    have hx := hb.entries e (hpre.subset (hsplit ▸ by simp))
    rw [hseq] at hx
    rw [Reading.op, get_answer hx]
    exact readEntry_at hb hpre h hx
  | index v hash rest =>
    have hsome := hb.idx hash (packsOf_mono hpre (h.2 hash List.mem_cons_self))
    obtain ⟨x, hx⟩ := Option.isSome_iff_exists.mp hsome
    rw [Reading.op, get_answer hx]
    exact readIdx_at h x

/-- A cached view is of a part of the chain. -/
def CachedAt (tagOf : Bytes → Tag) (b : Path → Option Bytes) (log : List LogEntry)
    (view : Option (WalView Tag)) : Prop :=
  ∀ v, view = some v → ∃ pre, pre <+: log ∧ pre ≠ [] ∧ Shows tagOf b pre v

/-- A read of the manifest is a read of the whole chain as it is then, from the cache as well. -/
theorem turn_manifest {view : Option (WalView Tag)} (hb : Stands b log)
    (htags : ∀ m m' : Manifest, tagOf m.encode = tagOf m'.encode → m.encode = m'.encode)
    (hview : CachedAt tagOf b log view) :
    TurnAt tagOf b log (Reading.manifest.turn view
      (mapApply tagOf b (Reading.manifest.op (view.map (·.tag)))).2) := by
  by_cases hne : log = []
  · rw [Reading.op, mapApply, hb.unborn hne]
    exact hne
  · obtain ⟨m, hm, hmanifests⟩ := hb.manifest hne
    rw [Reading.op, mapApply, hm]
    simp only [Objio.answer]
    split_ifs with hcached
    · obtain ⟨v, hv, hvtag⟩ := Option.map_eq_some_iff.mp hcached
      subst hv
      obtain ⟨pre, hpre, -, hshows⟩ := hview v rfl
      have henc : v.manifest.encode = m.encode := htags _ _ (hshows.tag.symm.trans hvtag)
      have hsame := manifest_encode_inj hshows.manifests.fits hmanifests.fits henc
      have hhead : headOf pre = headOf log := by
        rw [← hshows.manifests.head, hsame, hmanifests.head]
      rw [hb.chained.eq_of_head hpre hhead] at hshows
      exact ⟨hne, hshows⟩
    · simp only [Reading.turn, Reading.readManifest]
      cases hd : capped "manifest" m.encode >>= Manifest.decode with
      | error st => rfl
      | ok m' =>
        have heq := Except.ok.inj ((manifest_decode hmanifests.fits).symm.trans (capped_bind hd))
        subst heq
        simp only
        split_ifs with hzero
        · exact ⟨hne, rfl, hmanifests, hzero⟩
        · have hwalk : TurnAt tagOf b log
              (Reading.walk (tagOf m.encode) m ⟨∅, []⟩ (headOf ([] ++ log)) []) :=
            walk_at hb.chained hne rfl hmanifests (by simp) (not_not.mp hzero).symm seeds_nil
          rw [List.nil_append, ← hmanifests.head] at hwalk
          exact hwalk

end Reads

end SrcControl.BucketTransport
