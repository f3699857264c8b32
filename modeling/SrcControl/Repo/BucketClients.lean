import SrcControl.Repo.BucketLog

/-!
# The clients of a bucket

What each client may claim of the log and of its own call, whatever the others do: what a call
carries has been read from a part of the chain, and its slot holds its entry. From this every
operation keeps the log standing, and a call takes effect at one operation.
-/

namespace SrcControl.BucketTransport

open Checked (Stop)
open Linearizability (Event Entry)
open Objio (Path Fetched mapApply)
open WalFormat (Manifest RefUpdate LogEntry Checkpoint MAX_LIST MAX_NAME MAX_HASH FitsString)

abbrev Entries := List (Entry Op Res)

/-! ## Taking effect -/

/-- The call has not taken effect. -/
def Unborn (L : Entries) (id : Nat) : Prop := ∀ e ∈ L, e.id ≠ id

/-- What a call whose result is settled by the tips alone returns. -/
def decided (refs : BTreeMap String ObjectId) : Op → Option Res
  | .listRefs => some (.ok (.refs refs.toList))
  | .putPack _ => none
  | .updateRef branch id expectedOld =>
    if refs[branch]? = some id then some (.ok .updated)
    else if refs[branch]? ≠ expectedOld then some (.error .nonFastForward)
    else none

theorem apply_decided {refs : BTreeMap String ObjectId} {op : Op} {r : Res}
    (h : decided refs op = some r) : apply refs op = (refs, r) := by
  cases op with
  | listRefs => rw [apply, ← Option.some.inj h]
  | putPack objects => cases h
  | updateRef branch id expectedOld =>
    rw [decided] at h
    rw [apply]
    split_ifs at h ⊢
    · rw [← Option.some.inj h]
    · rw [← Option.some.inj h]

/-- A call whose result these tips settle has taken effect, another one has not. -/
structure Settled (L : Entries) (id : Nat) (op : Op) (refs : BTreeMap String ObjectId) : Prop where
  known : ∀ r, decided refs op = some r → ⟨id, op, r⟩ ∈ L
  unborn : decided refs op = none → Unborn L id

/-- Calls other than `id` may have taken effect since. -/
structure Extends (id : Nat) (L L' : Entries) : Prop where
  mem : L ⊆ L'
  unborn : Unborn L id → Unborn L' id

theorem Extends.refl (id : Nat) (L : Entries) : Extends id L L := ⟨fun _ h => h, fun h => h⟩

theorem Extends.snoc {id : Nat} {L : Entries} {e : Entry Op Res} (h : e.id ≠ id) :
    Extends id L (L ++ [e]) where
  mem := List.subset_append_left _ _
  unborn := by
    intro hu x hx
    rcases List.mem_append.mp hx with hx | hx
    · exact hu x hx
    · rwa [List.mem_singleton.mp hx]

/-! ## Claims -/

/-- An update of a branch that a log entry with these packs can hold. -/
def Sends (op : Op) (packs : List String) : Prop :=
  ∃ branch id expectedOld, op = .updateRef branch id expectedOld ∧ FitsString MAX_NAME branch ∧
    FitsId id ∧ WalFormat.FitsList (FitsString MAX_HASH) packs

/-- The objects of a `put_pack`, or those staged for an update. -/
structure Uploads (op : Op) (pending : List String) (u : Upload) : Prop where
  fits : FitsString MAX_HASH u.hash
  purpose : op = .putPack u.objects ∨ Sends op (pending ++ [u.hash])

section Claims

variable {Tag : Type} (tagOf : Bytes → Tag) (b : Path → Option Bytes) (log : List LogEntry)
  (L : Entries) (id : Nat) (op : Op)

/-- Before a `refresh` has read the manifest. -/
def Before : Next → Prop
  | .attempt _ pending => Sends op pending ∧ Unborn L id
  | .listed => op = .listRefs ∧ Unborn L id
  | .committed | .folded => ⟨id, op, .ok .updated⟩ ∈ L

/-- After a `refresh` has read a manifest with these tips. -/
def After (refs : BTreeMap String ObjectId) : Next → Prop
  | .attempt _ pending => Sends op pending ∧ Settled L id op refs
  | .listed => op = .listRefs ∧ Settled L id op refs
  | .committed | .folded => ⟨id, op, .ok .updated⟩ ∈ L

def ResAt : Res → Prop
  | .ok reply => ⟨id, op, .ok reply⟩ ∈ L
  | .error .nonFastForward => ⟨id, op, .error .nonFastForward⟩ ∈ L
  | .error (.contention _) => Unborn L id
  | .error (.failed _) => True

/-- A round of `update_ref` that has found its branch where it should be. -/
structure AttemptAt (pre : List LogEntry) (a : Attempt Tag) : Prop where
  part : pre <+: log
  unborn : Unborn L id
  sends : ∃ branch tip, op = .updateRef branch tip (refsOf pre)[branch]? ∧
    (refsOf pre)[branch]? ≠ some tip ∧
    a.entry = ⟨0, headOf pre, a.entry.packs, [⟨branch, (refsOf pre)[branch]?, tip⟩]⟩
  fits : a.entry.Fits
  manifests : Manifests b pre ⟨headOf pre, a.checkpointSeq, a.headBranch⟩
  tag : (pre = [] ∧ a.prevTag = none) ∨ (pre ≠ [] ∧
    a.prevTag = some (tagOf (Manifest.mk (headOf pre) a.checkpointSeq a.headBranch).encode))

/-- A round that holds a slot. -/
structure ClaimedAt (pre : List LogEntry) (a : Attempt Tag) (seq : UInt64) : Prop extends
    AttemptAt tagOf b log L id op pre a where
  above : headOf pre < seq
  slot : b (logKey seq) = some (a.entryAt seq).encode

/-- A fold of the chain up to a manifest that had this tag. -/
structure FoldAt (pre : List LogEntry) (m : Manifest) (tag : Tag) : Prop where
  part : pre <+: log
  ne : pre ≠ []
  head : m.headSeq = headOf pre
  checkpoint : m.checkpointSeq = headOf pre
  fits : m.Fits
  tag : ∃ m₀, Manifests b pre m₀ ∧ tag = tagOf m₀.encode

def PcAt (pending : List String) : Pc Tag → Prop
  | .putPack u | .putIdx u => Unborn L id ∧ Uploads op pending u
  | .refresh r next => (r.reading = .manifest ∧ Before L id op next) ∨
    ∃ pre, pre <+: log ∧ ReadingAt tagOf b pre r.reading ∧ After L id op (refsOf pre) next
  | .claim a seq => ∃ pre, AttemptAt tagOf b log L id op pre a ∧ headOf pre < seq
  | .packPresent a seq hash rest | .idxPresent a seq hash rest =>
    ∃ pre, ClaimedAt tagOf b log L id op pre a seq ∧
      ∀ p ∈ a.entry.packs, p ∈ hash :: rest ∨ (b (idxKey p)).isSome
  | .commit a seq => ∃ pre, ClaimedAt tagOf b log L id op pre a seq ∧
    ∀ p ∈ a.entry.packs, (b (idxKey p)).isSome
  | .fold c m tag => ⟨id, op, .ok .updated⟩ ∈ L ∧
    ∃ pre, FoldAt tagOf b log pre m tag ∧ Folds pre c
  | .foldCommit m tag => ⟨id, op, .ok .updated⟩ ∈ L ∧
    ∃ pre, FoldAt tagOf b log pre m tag ∧ (b (checkpointKey m.headSeq)).isSome
  | .done r => ResAt L id op r

/-- A client between calls, or in one of them. -/
structure TransportAt (t : Transport Tag) : Prop where
  view : CachedAt tagOf b log t.view
  pending : ∀ p ∈ t.pendingPacks, FitsString MAX_HASH p

end Claims

section Stable

variable {Tag : Type} {tagOf : Bytes → Tag} {b b' : Path → Option Bytes}
  {log log' pre : List LogEntry} {L L' : Entries} {id : Nat} {op : Op}

theorem Settled.mono {refs : BTreeMap String ObjectId} (h : Settled L id op refs)
    (hL : Extends id L L') : Settled L' id op refs :=
  ⟨fun r hr => hL.mem (h.known r hr), fun hn => hL.unborn (h.unborn hn)⟩

theorem Before.mono {next : Next} (h : Before L id op next) (hL : Extends id L L') :
    Before L' id op next := by
  cases next with
  | attempt n pending => exact ⟨h.1, hL.unborn h.2⟩
  | listed => exact ⟨h.1, hL.unborn h.2⟩
  | committed => exact hL.mem h
  | folded => exact hL.mem h

theorem After.mono {next : Next} {refs : BTreeMap String ObjectId} (h : After L id op refs next)
    (hL : Extends id L L') : After L' id op refs next := by
  cases next with
  | attempt n pending => exact ⟨h.1, h.2.mono hL⟩
  | listed => exact ⟨h.1, h.2.mono hL⟩
  | committed => exact hL.mem h
  | folded => exact hL.mem h

theorem ResAt.mono {r : Res} (h : ResAt L id op r) (hL : Extends id L L') : ResAt L' id op r := by
  rcases r with (e | e | e) | reply
  · trivial
  · exact hL.mem h
  · exact hL.unborn h
  · exact hL.mem h

theorem AttemptAt.mono {a : Attempt Tag} (h : AttemptAt tagOf b log L id op pre a)
    (hb : Keeps b b') (hlog : log <+: log') (hL : Extends id L L') :
    AttemptAt tagOf b' log' L' id op pre a where
  part := h.part.trans hlog
  unborn := hL.unborn h.unborn
  sends := h.sends
  fits := h.fits
  manifests := h.manifests.mono hb
  tag := h.tag

theorem ClaimedAt.mono {a : Attempt Tag} {seq : UInt64}
    (h : ClaimedAt tagOf b log L id op pre a seq) (hb : Keeps b b') (hlog : log <+: log')
    (hL : Extends id L L') : ClaimedAt tagOf b' log' L' id op pre a seq where
  toAttemptAt := h.toAttemptAt.mono hb hlog hL
  above := h.above
  slot := hb _ _ (logKey_ne _) h.slot

theorem FoldAt.mono {m : Manifest} {tag : Tag} (h : FoldAt tagOf b log pre m tag)
    (hb : Keeps b b') (hlog : log <+: log') : FoldAt tagOf b' log' pre m tag where
  part := h.part.trans hlog
  ne := h.ne
  head := h.head
  checkpoint := h.checkpoint
  fits := h.fits
  tag := by
    obtain ⟨m₀, hm, ht⟩ := h.tag
    exact ⟨m₀, hm.mono hb, ht⟩

/-- What a call claims stays true under the operations of the others. -/
theorem PcAt.mono {pending : List String} {pc : Pc Tag} (h : PcAt tagOf b log L id op pending pc)
    (hb : Keeps b b') (hlog : log <+: log') (hL : Extends id L L') :
    PcAt tagOf b' log' L' id op pending pc := by
  cases pc with
  | putPack u => exact ⟨hL.unborn h.1, h.2⟩
  | putIdx u => exact ⟨hL.unborn h.1, h.2⟩
  | refresh r next =>
    rcases h with ⟨hr, hbefore⟩ | ⟨pre, hpre, hr, hafter⟩
    · exact .inl ⟨hr, hbefore.mono hL⟩
    · exact .inr ⟨pre, hpre.trans hlog, hr.mono hb, hafter.mono hL⟩
  | claim a seq =>
    obtain ⟨pre, ha, hlt⟩ := h
    exact ⟨pre, ha.mono hb hlog hL, hlt⟩
  | packPresent a seq hash rest =>
    obtain ⟨pre, ha, hpacks⟩ := h
    exact ⟨pre, ha.mono hb hlog hL, fun p hp => (hpacks p hp).imp_right (hb.isSome (idxKey_ne p))⟩
  | idxPresent a seq hash rest =>
    obtain ⟨pre, ha, hpacks⟩ := h
    exact ⟨pre, ha.mono hb hlog hL, fun p hp => (hpacks p hp).imp_right (hb.isSome (idxKey_ne p))⟩
  | commit a seq =>
    obtain ⟨pre, ha, hpacks⟩ := h
    exact ⟨pre, ha.mono hb hlog hL, fun p hp => hb.isSome (idxKey_ne p) (hpacks p hp)⟩
  | fold c m tag =>
    obtain ⟨hin, pre, hfold, hc⟩ := h
    exact ⟨hL.mem hin, pre, hfold.mono hb hlog, hc⟩
  | foldCommit m tag =>
    obtain ⟨hin, pre, hfold, hc⟩ := h
    exact ⟨hL.mem hin, pre, hfold.mono hb hlog, hb.isSome (checkpointKey_ne _) hc⟩
  | done r => exact ResAt.mono h hL

theorem CachedAt.mono {view : Option (WalView Tag)} (h : CachedAt tagOf b log view)
    (hb : Keeps b b') (hlog : log <+: log') : CachedAt tagOf b' log' view := by
  intro v hv
  obtain ⟨pre, hpre, hne, hshows⟩ := h v hv
  exact ⟨pre, hpre.trans hlog, hne, hshows.mono hb⟩

theorem TransportAt.mono {t : Transport Tag} (h : TransportAt tagOf b log t) (hb : Keeps b b')
    (hlog : log <+: log') : TransportAt tagOf b' log' t :=
  ⟨h.view.mono hb hlog, h.pending⟩

/-! ## The log under a write -/

/-- A key other than the manifest is written, and a checkpoint only as a fold of the chain. -/
theorem Stands.keeps (h : Stands b log) (hb : Keeps b b') (hm : b' MANIFEST = b MANIFEST)
    (hc : ∀ s x, b' (checkpointKey s) = some x → b (checkpointKey s) = some x ∨
      ∃ pre c, pre <+: log ∧ headOf pre = s ∧ Folds pre c ∧ x = c.encode) : Stands b' log where
  chained := h.chained
  entries := fun e he => hb _ _ (logKey_ne _) (h.entries e he)
  idx := fun p hp => hb.isSome (idxKey_ne p) (h.idx p hp)
  unborn := fun hnil => hm.trans (h.unborn hnil)
  manifest := by
    intro hne
    obtain ⟨m, hm', hmanifests⟩ := h.manifest hne
    exact ⟨m, hm.trans hm', hmanifests.mono hb⟩
  checkpoints := by
    intro s x hx
    rcases hc s x hx with hx | hx
    · exact h.checkpoints s x hx
    · exact hx

theorem keeps_manifest (x : Bytes) : Keeps b (Function.update b MANIFEST (some x)) := by
  intro k y hk hy
  rwa [Function.update_of_ne hk]

/-- The manifest is swapped, for a chain that has grown or not. -/
theorem Stands.swap (h : Stands b log) {m : Manifest} (hlog : log <+: log') (hne : log' ≠ [])
    (hchain : Chained log') (hentries : ∀ e ∈ log', b (logKey e.seq) = some e.encode)
    (hidx : ∀ p ∈ packsOf log', (b (idxKey p)).isSome) (hm : Manifests b log' m) :
    Stands (Function.update b MANIFEST (some m.encode)) log' where
  chained := hchain
  entries := fun e he => keeps_manifest _ _ _ (logKey_ne _) (hentries e he)
  idx := fun p hp => (keeps_manifest _).isSome (idxKey_ne p) (hidx p hp)
  unborn := fun hnil => absurd hnil hne
  manifest := fun _ => ⟨m, Function.update_self .., hm.mono (keeps_manifest _)⟩
  checkpoints := by
    intro s x hx
    rw [Function.update_of_ne (checkpointKey_ne s)] at hx
    obtain ⟨pre, c, hpre, hhead, hc, hxc⟩ := h.checkpoints s x hx
    exact ⟨pre, c, hpre.trans hlog, hhead, hc, hxc⟩

/-- The manifest that a fold has seen is still there: the chain has not grown. -/
theorem Stands.foldCommit (h : Stands b log) {m : Manifest} {tag : Tag}
    (htags : ∀ m m' : Manifest, tagOf m.encode = tagOf m'.encode → m.encode = m'.encode)
    (hfold : FoldAt tagOf b log pre m tag) (hc : (b (checkpointKey m.headSeq)).isSome)
    (hmatch : (b MANIFEST).map tagOf = some tag) :
    Stands (Function.update b MANIFEST (some m.encode)) log := by
  obtain ⟨m₀, hm₀, rfl⟩ := hfold.tag
  have hne : log ≠ [] := by
    rintro rfl
    rw [h.unborn rfl] at hmatch
    cases hmatch
  obtain ⟨m₁, hread, hm₁⟩ := h.manifest hne
  rw [hread, Option.map_some, Option.some.injEq] at hmatch
  have hsame := manifest_encode_inj hm₁.fits hm₀.fits (htags _ _ hmatch)
  have hpre : pre = log := h.chained.eq_of_head hfold.part (by rw [← hm₀.head, ← hsame, hm₁.head])
  subst hpre
  exact h.swap (List.prefix_refl _) hne h.chained h.entries h.idx
    ⟨hfold.fits, hfold.head, pre, List.prefix_refl _, hfold.checkpoint.symm, fun _ => by
      rwa [hfold.checkpoint, ← hfold.head]⟩

/-- The manifest that a round has seen is still there: its entry is the next one of the chain. -/
theorem Stands.commit (h : Stands b log) {a : Attempt Tag} {seq : UInt64}
    (htags : ∀ m m' : Manifest, tagOf m.encode = tagOf m'.encode → m.encode = m'.encode)
    (ha : ClaimedAt tagOf b log L id op pre a seq)
    (hpacks : ∀ p ∈ a.entry.packs, (b (idxKey p)).isSome)
    (hmatch : (b MANIFEST).map tagOf = a.prevTag) :
    Stands (Function.update b MANIFEST (some (a.manifestAt seq).encode))
        (log ++ [a.entryAt seq]) ∧
      apply (refsOf log) op = (refsOf (log ++ [a.entryAt seq]), .ok .updated) := by
  have hpre : pre = log := by
    rcases ha.tag with ⟨rfl, htag⟩ | ⟨-, htag⟩
    · by_contra hne
      obtain ⟨m₁, hread, -⟩ := h.manifest (Ne.symm hne)
      rw [hread, htag] at hmatch
      cases hmatch
    · have hne : log ≠ [] := by
        rintro rfl
        rw [h.unborn rfl, htag] at hmatch
        cases hmatch
      obtain ⟨m₁, hread, hm₁⟩ := h.manifest hne
      rw [hread, Option.map_some, htag, Option.some.injEq] at hmatch
      have hsame := manifest_encode_inj hm₁.fits ha.manifests.fits (htags _ _ hmatch)
      refine h.chained.eq_of_head ha.part ?_
      rw [← hm₁.head, hsame]
  subst hpre
  obtain ⟨branch, tip, hop, hne, hentry⟩ := ha.sends
  have hparent : (a.entryAt seq).parentSeq = headOf pre := congrArg LogEntry.parentSeq hentry
  have hfits : (a.entryAt seq).Fits := ⟨ha.fits.packs, ha.fits.updates⟩
  have hgrow : pre <+: pre ++ [a.entryAt seq] := List.prefix_append _ _
  have hupdates : (a.entryAt seq).updates = [⟨branch, (refsOf pre)[branch]?, tip⟩] :=
    congrArg LogEntry.updates hentry
  have hchain := Chained.snoc h.chained hparent ha.above hfits ⟨branch, tip, hupdates⟩
  refine ⟨h.swap hgrow (by simp) hchain ?_ ?_ ?_, ?_⟩
  · intro e he
    rcases List.mem_append.mp he with he | he
    · exact h.entries e he
    · rw [List.mem_singleton.mp he]
      exact ha.slot
  · intro p hp
    rcases mem_packsOf_snoc.mp hp with hp | hp
    · exact h.idx p hp
    · exact hpacks p hp
  · have hext := ha.manifests.extend hgrow ha.manifests.fits.headBranch
    rw [headOf_snoc] at hext
    exact hext
  · rw [hop, apply, if_neg hne, if_neg (not_not.mpr rfl), refsOf_snoc, hupdates]
    rfl

end Stable

end SrcControl.BucketTransport
