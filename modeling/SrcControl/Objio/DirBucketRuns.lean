import SrcControl.Objio.DirBucketFiles

/-!
# Runs of a bucket

Each call takes effect at one step: a read where it opens the file, a delete where it unlinks, a
write where it renames or where it finds its precondition broken. Between the look at the file
and the rename the precondition of a write stays true: other writers wait for the lock, and a
delete finds nothing to remove, unless the write expects a tag.
-/

namespace SrcControl.Objio

open Linearizability (Event Entry Linearizes)

variable {Tag : Type} [DecidableEq Tag] {tagOf : Bytes → Tag}

/-! ## What holds at each step of a call -/

/-- The file is as the write asks for. -/
def Pre (tagOf : Bytes → Tag) (fs : Fs) : Op Tag → Prop
  | .putNew key _ => fs.link key = none
  | .putIfTag key _ expectedTag => (fs.read key).map tagOf = expectedTag
  | _ => False

/-- The call has not taken effect. -/
def Unborn (L : List (Entry (Op Tag) (Res Tag))) (id : Nat) : Prop := ∀ e ∈ L, e.id ≠ id

/-- What holds for a call of process `pid` at the step it has come to. -/
def Good (tagOf : Bytes → Tag) (fs : Fs) (lock : Option Nat)
    (L : List (Entry (Op Tag) (Res Tag))) (pid : Nat) (call : Call Tag) : Prop :=
  match call.pc with
  | .start => Unborn L call.id
  | .lockFile => Unborn L call.id
  | .locked => Unborn L call.id ∧ lock = some pid
  | .opened i => Stable fs i ∧
    match call.op with
    | .get _ cachedTag => ⟨call.id, call.op, .fetched (answer tagOf cachedTag (fs.data i))⟩ ∈ L
    | .putIfTag key _ expectedTag => lock = some pid ∧
      if expectedTag = some (tagOf (fs.data i)) then Unborn L call.id ∧ fs.link key = some i
      else ⟨call.id, call.op, .swapped none⟩ ∈ L
    | _ => False
  | .checked => Unborn L call.id ∧ lock = some pid ∧ Pre tagOf fs call.op
  | .created i => Unborn L call.id ∧ lock = some pid ∧ Pre tagOf fs call.op ∧
    fs.link (tmpPath call.op.key pid) = some i
  | .written => Unborn L call.id ∧ lock = some pid ∧ Pre tagOf fs call.op ∧
    ∃ i, fs.link (tmpPath call.op.key pid) = some i ∧ fs.data i = call.op.bytes
  | .done r => ⟨call.id, call.op, r⟩ ∈ L

/-- A `put_if_tag` of `key` has found the tag it expects and has not renamed yet. -/
def InSwap (tagOf : Bytes → Tag) (fs : Fs) (call : Call Tag) (key : Path) : Prop :=
  ∃ bytes tag, call.op = .putIfTag key bytes (some tag) ∧
    match call.pc with
    | .opened i => tagOf (fs.data i) = tag
    | .checked => True
    | .created _ => True
    | .written => True
    | _ => False

variable {fs fs' : Fs} {lock lock' : Option Nat} {L L' : List (Entry (Op Tag) (Res Tag))}
  {pid q : Nat} {call : Call Tag}

/-- Entries added for other calls. -/
def Extends (id : Nat) (L L' : List (Entry (Op Tag) (Res Tag))) : Prop :=
  L ⊆ L' ∧ (Unborn L id → Unborn L' id)

omit [DecidableEq Tag] in
theorem Extends.refl (id : Nat) (L : List (Entry (Op Tag) (Res Tag))) : Extends id L L :=
  ⟨fun _ h => h, fun h => h⟩

omit [DecidableEq Tag] in
theorem Extends.snoc {id : Nat} {e : Entry (Op Tag) (Res Tag)} (h : e.id ≠ id) :
    Extends id L (L ++ [e]) := by
  refine ⟨fun x hx => List.mem_append_left _ hx, fun hu x hx => ?_⟩
  rcases List.mem_append.mp hx with hx | hx
  · exact hu x hx
  · exact List.mem_singleton.mp hx ▸ h

/-- The path of the call's key is one that it watches until it renames. -/
def Watches (tagOf : Bytes → Tag) (fs : Fs) (call : Call Tag) : Prop :=
  match call.pc with
  | .opened i => ∃ key bytes, call.op = .putIfTag key bytes (some (tagOf (fs.data i)))
  | .checked => True
  | .created _ => True
  | .written => True
  | _ => False

/-- A step away from the temporary files leaves the calls of other processes as they were. -/
theorem Good.kept (h : Good tagOf fs lock L q call) (hvalid : validateKey call.op.key = true)
    (hs : fs.Sound) (hk : Kept fs fs') (hlock : lock = some q → lock' = some q)
    (hL : Extends call.id L L')
    (hkey : Watches tagOf fs call → fs'.link call.op.key = fs.link call.op.key) :
    Good tagOf fs' lock' L' q call := by
  have hpre : fs'.link call.op.key = fs.link call.op.key → Pre tagOf fs call.op →
      Pre tagOf fs' call.op := by
    intro hlink hp
    rcases hop : call.op with ⟨key, c⟩ | ⟨key, b⟩ | ⟨key, b, e⟩ | ⟨key⟩ | ⟨key⟩ <;>
      rw [hop] at hp hlink
    · exact hp
    · exact hlink.trans hp
    · have hread : fs'.read key = fs.read key := hk.read hs hlink
      rw [Pre, hread]
      exact hp
    · exact hp
    · exact hp
  have htmp := hk.tmp call.op.key q hvalid
  obtain ⟨id, op, pc⟩ := call
  cases pc with
  | start => exact hL.2 h
  | lockFile => exact hL.2 h
  | locked => exact ⟨hL.2 h.1, hlock h.2⟩
  | opened i =>
    obtain ⟨hstable, hop⟩ := h
    obtain ⟨hstable', hdata⟩ := hk.stable hstable
    refine ⟨hstable', ?_⟩
    cases op with
    | get key c =>
      dsimp only at hop ⊢
      rw [hdata]
      exact hL.1 hop
    | putIfTag key b e =>
      dsimp only at hop ⊢
      obtain ⟨hholds, hcase⟩ := hop
      refine ⟨hlock hholds, ?_⟩
      rw [hdata]
      split_ifs at hcase ⊢ with he
      · exact ⟨hL.2 hcase.1, (hkey ⟨key, b, by rw [he]⟩).trans hcase.2⟩
      · exact hL.1 hcase
    | putNew key b => exact hop
    | «exists» key => exact hop
    | delete key => exact hop
  | checked => exact ⟨hL.2 h.1, hlock h.2.1, hpre (hkey trivial) h.2.2⟩
  | created i => exact ⟨hL.2 h.1, hlock h.2.1, hpre (hkey trivial) h.2.2.1, htmp.trans h.2.2.2⟩
  | written =>
    obtain ⟨hu, hholds, hp, i, hlink, hdata⟩ := h
    exact ⟨hL.2 hu, hlock hholds, hpre (hkey trivial) hp, i, htmp.trans hlink,
      (hk.data i (hs.below hlink)).trans hdata⟩
  | done r => exact hL.1 h

/-- A step of the holder of the lock leaves what the others rely on. -/
theorem Good.wrote (h : Good tagOf fs lock L q call)
    (hstable : ∀ i, Stable fs i → Stable fs' i ∧ fs'.data i = fs.data i)
    (hlock : lock = some pid) (hne : q ≠ pid) (hL : Extends call.id L L') :
    Good tagOf fs' lock L' q call := by
  have hno : lock ≠ some q := by
    rw [hlock]
    exact fun heq => hne (Option.some.inj heq).symm
  obtain ⟨id, op, pc⟩ := call
  cases pc with
  | start => exact hL.2 h
  | lockFile => exact hL.2 h
  | locked => exact absurd h.2 hno
  | opened i =>
    obtain ⟨hst, hop⟩ := h
    obtain ⟨hst', hdata⟩ := hstable i hst
    refine ⟨hst', ?_⟩
    cases op with
    | get key c =>
      dsimp only at hop ⊢
      rw [hdata]
      exact hL.1 hop
    | putIfTag key b e => exact absurd hop.1 hno
    | putNew key b => exact hop
    | «exists» key => exact hop
    | delete key => exact hop
  | checked => exact absurd h.2.1 hno
  | created i => exact absurd h.2.1 hno
  | written => exact absurd h.2.1 hno
  | done r => exact hL.1 h

/-! ## A step of a call -/

/-- The step is a delete that takes the file away from under a `put_if_tag`. -/
def Disturbs (tagOf : Bytes → Tag) (fs : Fs) (op : Op Tag) (pc : Pc Tag) (call : Call Tag) : Prop :=
  pc = .start ∧ ∃ key, op = .delete key ∧ (fs.link key).isSome ∧ InSwap tagOf fs call key

/-- A step of call `id` of process `pid` from `fs`, `lock`, the entries `L` and the map `m`: it
takes effect or it does not, and what the other calls rely on stays. -/
structure Stepped (tagOf : Bytes → Tag) (fs : Fs) (lock : Option Nat)
    (L : List (Entry (Op Tag) (Res Tag))) (m : Path → Option Bytes) (pid id : Nat) (op : Op Tag)
    (pc : Pc Tag) (fs' : Fs) (lock' : Option Nat) (pc' : Pc Tag)
    (L' : List (Entry (Op Tag) (Res Tag))) (m' : Path → Option Bytes) : Prop where
  effect : (L' = L ∧ m' = m) ∨
    ∃ r, Unborn L id ∧ mapApply tagOf m op = (m', r) ∧ L' = L ++ [⟨id, op, r⟩]
  agrees : ∀ key, ¬Reserved key → fs'.read key = m' key
  sound : fs'.Sound
  good : Good tagOf fs' lock' L' pid ⟨id, op, pc'⟩
  others : ∀ q call, q ≠ pid → validateKey call.op.key = true → ¬Reserved call.op.key →
    Good tagOf fs lock L q call → ¬Disturbs tagOf fs op pc call → Extends call.id L L' →
    Good tagOf fs' lock' L' q call

variable {m m' : Path → Option Bytes} {id : Nat} {op : Op Tag} {pc pc' : Pc Tag}

/-- A step that leaves the files alone. -/
theorem stepped_same (hs : fs.Sound) (hlock : ∀ q, q ≠ pid → lock = some q → lock' = some q)
    (heffect : (L' = L ∧ m' = m) ∨
      ∃ r, Unborn L id ∧ mapApply tagOf m op = (m', r) ∧ L' = L ++ [⟨id, op, r⟩])
    (hagrees : ∀ key, ¬Reserved key → fs.read key = m' key)
    (hgood : Good tagOf fs lock' L' pid ⟨id, op, pc'⟩) :
    Stepped tagOf fs lock L m pid id op pc fs lock' pc' L' m' where
  effect := heffect
  agrees := hagrees
  sound := hs
  good := hgood
  others := fun q _ hq hvalid _ h _ hL =>
    h.kept hvalid hs (.refl fs) (hlock q hq) hL (fun _ => rfl)

/-- A step of the holder of the lock on its temporary file. -/
theorem stepped_wrote (hlock : lock = some pid) (hs' : fs'.Sound)
    (hstable : ∀ i, Stable fs i → Stable fs' i ∧ fs'.data i = fs.data i)
    (heffect : (L' = L ∧ m' = m) ∨
      ∃ r, Unborn L id ∧ mapApply tagOf m op = (m', r) ∧ L' = L ++ [⟨id, op, r⟩])
    (hagrees : ∀ key, ¬Reserved key → fs'.read key = m' key)
    (hgood : Good tagOf fs' lock L' pid ⟨id, op, pc'⟩) :
    Stepped tagOf fs lock L m pid id op pc fs' lock pc' L' m' where
  effect := heffect
  agrees := hagrees
  sound := hs'
  good := hgood
  others := fun _ _ hq _ _ h _ hL => h.wrote hstable hlock hq hL

/-- A file that a call watches and that is there is one that it expects. -/
theorem Good.inSwap (h : Good tagOf fs lock L q call) (hw : Watches tagOf fs call)
    (hsome : (fs.link call.op.key).isSome) : InSwap tagOf fs call call.op.key := by
  obtain ⟨i, hi⟩ := Option.isSome_iff_exists.mp hsome
  have hpre : Pre tagOf fs call.op →
      ∃ bytes tag, call.op = .putIfTag call.op.key bytes (some tag) := by
    intro hp
    rcases hop : call.op with ⟨key, c⟩ | ⟨key, b⟩ | ⟨key, b, e⟩ | ⟨key⟩ | ⟨key⟩ <;>
      rw [hop] at hp hi
    · exact hp.elim
    · exact absurd (hi.symm.trans hp) (by simp)
    · have hread : fs.read key = some (fs.data i) := by
        rw [Fs.read, show fs.link key = some i from hi, Option.map_some]
      rw [Pre, hread, Option.map_some] at hp
      exact ⟨b, _, by rw [← hp]; rfl⟩
    · exact hp.elim
    · exact hp.elim
  obtain ⟨id, op, pc⟩ := call
  cases pc with
  | start => exact hw.elim
  | lockFile => exact hw.elim
  | locked => exact hw.elim
  | opened i =>
    obtain ⟨key, bytes, hop⟩ := hw
    refine ⟨bytes, _, ?_, rfl⟩
    dsimp only at hop ⊢
    rw [hop]
    rfl
  | checked =>
    obtain ⟨bytes, tag, hop⟩ := hpre h.2.2
    exact ⟨bytes, tag, hop, trivial⟩
  | created i =>
    obtain ⟨bytes, tag, hop⟩ := hpre h.2.2.1
    exact ⟨bytes, tag, hop, trivial⟩
  | written =>
    obtain ⟨bytes, tag, hop⟩ := hpre h.2.2.1
    exact ⟨bytes, tag, hop, trivial⟩
  | done r => exact hw.elim

theorem read_eq_none {key : Path} (h : fs.link key = none) : fs.read key = none := by
  rw [Fs.read, h, Option.map_none]

theorem read_eq_some {key : Path} {i : Nat} (h : fs.link key = some i) :
    fs.read key = some (fs.data i) := by
  rw [Fs.read, h, Option.map_some]

omit [DecidableEq Tag] in
theorem mem_snoc {id : Nat} {r : Res Tag} : ⟨id, op, r⟩ ∈ L ++ [⟨id, op, r⟩] :=
  List.mem_append_right _ (List.mem_singleton_self _)

section Calls

variable {key : Path} {bytes : Bytes} {tag : Option Tag}

theorem start_get (hs : fs.Sound) (hm : ∀ key, ¬Reserved key → fs.read key = m key)
    (hkey : ¬Reserved key) (h : Unborn L id)
    (hstep : stepCall tagOf fs lock pid (.get key tag) .start = some (fs', lock', pc')) :
    ∃ L' m', Stepped tagOf fs lock L m pid id (.get key tag) .start fs' lock' pc' L' m' := by
  have hmkey := hm key hkey
  unfold stepCall at hstep
  rcases hl : fs.link key with _ | i <;>
    simp only [hl, Option.some.injEq, Prod.mk.injEq] at hstep <;> obtain ⟨rfl, rfl, rfl⟩ := hstep
  · rw [read_eq_none hl] at hmkey
    refine ⟨_, m, stepped_same hs (fun _ _ h => h) (.inr ⟨.fetched .absent, h, ?_, rfl⟩) hm
      mem_snoc⟩
    rw [mapApply, ← hmkey]
  · rw [read_eq_some hl] at hmkey
    refine ⟨_, m, stepped_same hs (fun _ _ h => h)
      (.inr ⟨.fetched (answer tagOf tag (fs.data i)), h, ?_, rfl⟩) hm ⟨hs.stable hkey hl, mem_snoc⟩⟩
    rw [mapApply, ← hmkey]

theorem start_exists (hs : fs.Sound) (hm : ∀ key, ¬Reserved key → fs.read key = m key)
    (hkey : ¬Reserved key) (h : Unborn L id) :
    ∃ L' m', Stepped tagOf fs lock L m pid id (.exists key) .start fs lock
      (.done (.found (fs.link key).isSome)) L' m' := by
  refine ⟨_, m, stepped_same hs (fun _ _ h => h)
    (.inr ⟨.found (fs.link key).isSome, h, ?_, rfl⟩) hm mem_snoc⟩
  rw [mapApply, ← hm key hkey, Fs.read, Option.isSome_map]

theorem start_delete (hs : fs.Sound) (hm : ∀ key, ¬Reserved key → fs.read key = m key)
    (hkey : ¬Reserved key) (h : Unborn L id) :
    ∃ L' m', Stepped tagOf fs lock L m pid id (.delete key) .start (fs.unlink key) lock
      (.done .deleted) L' m' := by
  obtain ⟨hs', hk, hgone, hne⟩ := unlink_key hs hkey
  refine ⟨_, Function.update m key none, .inr ⟨.deleted, h, rfl, rfl⟩, fun k hres => ?_, hs',
    mem_snoc, fun q call hq hvalid hres hgood hquiet hL => ?_⟩
  · by_cases heq : k = key
    · rw [heq, read_eq_none hgone, Function.update_self]
    · rw [Function.update_of_ne heq, hk.read hs (hne k heq), hm k hres]
  · refine hgood.kept hvalid hs hk (fun h => h) hL (fun hw => ?_)
    by_cases heq : call.op.key = key
    · rcases hl : fs.link key with _ | i
      · rw [heq, hgone, hl]
      · have hsome : (fs.link call.op.key).isSome := by rw [heq, hl]; rfl
        exact absurd ⟨rfl, key, rfl, heq ▸ hsome, heq ▸ hgood.inSwap hw hsome⟩ hquiet
    · exact hne _ heq

/-- The lock file is opened; it is there from the first write on. -/
theorem start_write (hs : fs.Sound) (hm : ∀ key, ¬Reserved key → fs.read key = m key)
    (h : Unborn L id) : ∃ L' m', Stepped tagOf fs lock L m pid id op .start
      (fs.openOrCreate casLock) lock .lockFile L' m' := by
  obtain ⟨hs', hk, hne⟩ := openOrCreate_casLock hs
  refine ⟨L, m, .inl ⟨rfl, rfl⟩, fun k hres => ?_, hs', h,
    fun q call hq hvalid hres hgood hquiet hL => ?_⟩
  · rw [hk.read hs (hne k (Ne.symm (casLock_ne hres))), hm k hres]
  · exact hgood.kept hvalid hs hk (fun h => h) hL (fun _ => hne _ (Ne.symm (casLock_ne hres)))

theorem locked_putNew (hs : fs.Sound) (hm : ∀ key, ¬Reserved key → fs.read key = m key)
    (hkey : ¬Reserved key) (h : Unborn L id) (hlock : lock = some pid)
    (hstep : stepCall tagOf fs lock pid (.putNew key bytes) .locked = some (fs', lock', pc')) :
    ∃ L' m', Stepped tagOf fs lock L m pid id (.putNew key bytes) .locked fs' lock' pc' L' m' := by
  have hmkey := hm key hkey
  unfold stepCall at hstep
  dsimp only at hstep
  split_ifs at hstep with hsome <;> simp only [Option.some.injEq, Prod.mk.injEq] at hstep <;>
    obtain ⟨rfl, rfl, rfl⟩ := hstep
  · obtain ⟨i, hi⟩ := Option.isSome_iff_exists.mp hsome
    rw [read_eq_some hi] at hmkey
    refine ⟨_, m, stepped_same hs (fun _ _ h => h) (.inr ⟨.created false, h, ?_, rfl⟩) hm mem_snoc⟩
    rw [mapApply, ← hmkey]
  · have hnone : fs.link key = none := Option.not_isSome_iff_eq_none.mp hsome
    exact ⟨L, m, stepped_same hs (fun _ _ h => h) (.inl ⟨rfl, rfl⟩) hm ⟨h, hlock, hnone⟩⟩

theorem locked_putIfTag (hs : fs.Sound) (hm : ∀ key, ¬Reserved key → fs.read key = m key)
    (hkey : ¬Reserved key) (h : Unborn L id) (hlock : lock = some pid)
    (hstep : stepCall tagOf fs lock pid (.putIfTag key bytes tag) .locked =
      some (fs', lock', pc')) :
    ∃ L' m', Stepped tagOf fs lock L m pid id (.putIfTag key bytes tag) .locked fs' lock' pc'
      L' m' := by
  have hmkey := hm key hkey
  unfold stepCall at hstep
  rcases hl : fs.link key with _ | i <;> simp only [hl] at hstep
  · rw [read_eq_none hl] at hmkey
    split_ifs at hstep with htag <;> simp only [Option.some.injEq, Prod.mk.injEq] at hstep <;>
      obtain ⟨rfl, rfl, rfl⟩ := hstep
    · refine ⟨L, m, stepped_same hs (fun _ _ h => h) (.inl ⟨rfl, rfl⟩) hm ⟨h, hlock, ?_⟩⟩
      change (fs.read key).map tagOf = tag
      rw [read_eq_none hl, htag, Option.map_none]
    · refine ⟨_, m, stepped_same hs (fun _ _ h => h) (.inr ⟨.swapped none, h, ?_, rfl⟩) hm mem_snoc⟩
      rw [mapApply, ← hmkey, Option.map_none, if_neg (fun heq => htag heq.symm)]
  · rw [read_eq_some hl] at hmkey
    simp only [Option.some.injEq, Prod.mk.injEq] at hstep
    obtain ⟨rfl, rfl, rfl⟩ := hstep
    by_cases htag : tag = some (tagOf (fs.data i))
    · refine ⟨L, m, stepped_same hs (fun _ _ h => h) (.inl ⟨rfl, rfl⟩) hm
        ⟨hs.stable hkey hl, hlock, ?_⟩⟩
      rw [if_pos htag]
      exact ⟨h, hl⟩
    · refine ⟨_, m, stepped_same hs (fun _ _ h => h) (.inr ⟨.swapped none, h, ?_, rfl⟩) hm
        ⟨hs.stable hkey hl, hlock, ?_⟩⟩
      · rw [mapApply, ← hmkey, Option.map_some, if_neg (fun heq => htag heq.symm)]
      · rw [if_neg htag]
        exact mem_snoc

omit [DecidableEq Tag] in
theorem Pre.of_same (h : Pre tagOf fs op) (hlink : fs'.link op.key = fs.link op.key)
    (hread : fs'.read op.key = fs.read op.key) : Pre tagOf fs' op := by
  cases op with
  | get key c => exact h
  | putNew key b => exact hlink.trans h
  | putIfTag key b e => exact (congrArg (Option.map tagOf) hread).trans h
  | «exists» key => exact h
  | delete key => exact h

theorem checked_write (hs : fs.Sound) (hm : ∀ key, ¬Reserved key → fs.read key = m key)
    (hvalid : validateKey op.key = true) (hkey : ¬Reserved op.key)
    (h : Good tagOf fs lock L pid ⟨id, op, .checked⟩) :
    ∃ L' m', Stepped tagOf fs lock L m pid id op .checked (fs.create (tmpPath op.key pid)).2 lock
      (.created (fs.create (tmpPath op.key pid)).1) L' m' := by
  obtain ⟨hu, hlock, hpre⟩ := h
  obtain ⟨hs', hw, hl⟩ := create_tmp hvalid hs
  exact ⟨L, m, stepped_wrote hlock hs' hw.stable (.inl ⟨rfl, rfl⟩)
    (fun k hres => (hw.read k hres).trans (hm k hres))
    ⟨hu, hlock, hpre.of_same (hw.link _ hkey) (hw.read _ hkey), hl⟩⟩

theorem created_write {i : Nat} (hs : fs.Sound) (hm : ∀ key, ¬Reserved key → fs.read key = m key)
    (hvalid : validateKey op.key = true) (hkey : ¬Reserved op.key)
    (h : Good tagOf fs lock L pid ⟨id, op, .created i⟩) :
    ∃ L' m', Stepped tagOf fs lock L m pid id op (.created i) (fs.write i op.bytes) lock
      .written L' m' := by
  obtain ⟨hu, hlock, hpre, hl⟩ := h
  obtain ⟨hs', hw, hdata⟩ := write_tmp hvalid hs hl op.bytes
  exact ⟨L, m, stepped_wrote hlock hs' hw.stable (.inl ⟨rfl, rfl⟩)
    (fun k hres => (hw.read k hres).trans (hm k hres))
    ⟨hu, hlock, hpre.of_same (hw.link _ hkey) (hw.read _ hkey), i, hl, hdata⟩⟩

/-- With its precondition true a write does what it says. -/
theorem mapApply_of_pre (h : Pre tagOf fs op) (hread : fs.read op.key = m op.key) :
    mapApply tagOf m op = (Function.update m op.key (some op.bytes), op.success tagOf) := by
  cases op with
  | get key c => exact h.elim
  | putNew key b =>
    have hnone : m key = none := hread.symm.trans (read_eq_none h)
    rw [mapApply, hnone]
    rfl
  | putIfTag key b e =>
    have htag : (m key).map tagOf = e := (congrArg (Option.map tagOf) hread.symm).trans h
    rw [mapApply, if_pos htag]
    rfl
  | «exists» key => exact h.elim
  | delete key => exact h.elim

theorem written_rename (hs : fs.Sound) (hm : ∀ key, ¬Reserved key → fs.read key = m key)
    (hvalid : validateKey op.key = true) (hkey : ¬Reserved op.key)
    (h : Good tagOf fs lock L pid ⟨id, op, .written⟩)
    (hstep : stepCall tagOf fs lock pid op .written = some (fs', lock', pc')) :
    ∃ L' m', Stepped tagOf fs lock L m pid id op .written fs' lock' pc' L' m' := by
  obtain ⟨hu, hlock, hpre, i, hl, hdata⟩ := h
  obtain ⟨fs₁, hrename, hs', hstable, hread, hother⟩ := rename_tmp hvalid hkey hs hl
  unfold stepCall at hstep
  simp only [hrename, Option.some.injEq, Prod.mk.injEq] at hstep
  obtain ⟨rfl, rfl, rfl⟩ := hstep
  refine ⟨_, _, stepped_wrote hlock hs' hstable
    (.inr ⟨_, hu, mapApply_of_pre hpre (hm _ hkey), rfl⟩) (fun k hres => ?_) mem_snoc⟩
  by_cases heq : k = op.key
  · rw [heq, hread, hdata, Function.update_self]
  · rw [hother k hres heq, Function.update_of_ne heq, hm k hres]

theorem opened_get {i : Nat} (hs : fs.Sound) (hm : ∀ key, ¬Reserved key → fs.read key = m key)
    (h : Good tagOf fs lock L pid ⟨id, .get key tag, .opened i⟩) :
    ∃ L' m', Stepped tagOf fs lock L m pid id (.get key tag) (.opened i) fs lock
      (.done (.fetched (answer tagOf tag (fs.data i)))) L' m' :=
  ⟨L, m, stepped_same hs (fun _ _ h => h) (.inl ⟨rfl, rfl⟩) hm h.2⟩

theorem opened_putIfTag {i : Nat} (hs : fs.Sound)
    (hm : ∀ key, ¬Reserved key → fs.read key = m key)
    (h : Good tagOf fs lock L pid ⟨id, .putIfTag key bytes tag, .opened i⟩)
    (hstep : stepCall tagOf fs lock pid (.putIfTag key bytes tag) (.opened i) =
      some (fs', lock', pc')) :
    ∃ L' m', Stepped tagOf fs lock L m pid id (.putIfTag key bytes tag) (.opened i) fs' lock' pc'
      L' m' := by
  obtain ⟨-, hlock, hcase⟩ := h
  unfold stepCall at hstep
  dsimp only at hstep
  split_ifs at hstep hcase with htag <;> simp only [Option.some.injEq, Prod.mk.injEq] at hstep <;>
    obtain ⟨rfl, rfl, rfl⟩ := hstep
  · refine ⟨L, m, stepped_same hs (fun _ _ h => h) (.inl ⟨rfl, rfl⟩) hm ⟨hcase.1, hlock, ?_⟩⟩
    change (fs.read key).map tagOf = tag
    rw [read_eq_some hcase.2, htag, Option.map_some]
  · exact ⟨L, m, stepped_same hs (fun _ _ h => h) (.inl ⟨rfl, rfl⟩) hm hcase⟩

theorem lockFile_locked (hs : fs.Sound) (hm : ∀ key, ¬Reserved key → fs.read key = m key)
    (h : Unborn L id) (hfree : lock = none) :
    ∃ L' m', Stepped tagOf fs lock L m pid id op .lockFile fs (some pid) .locked L' m' := by
  refine ⟨L, m, stepped_same hs (fun q _ hq => ?_) (.inl ⟨rfl, rfl⟩) hm ⟨h, rfl⟩⟩
  rw [hfree] at hq
  cases hq

end Calls

theorem stepCall_stepped (hs : fs.Sound) (hm : ∀ key, ¬Reserved key → fs.read key = m key)
    (hvalid : validateKey op.key = true) (hkey : ¬Reserved op.key)
    (h : Good tagOf fs lock L pid ⟨id, op, pc⟩)
    (hstep : stepCall tagOf fs lock pid op pc = some (fs', lock', pc')) :
    ∃ L' m', Stepped tagOf fs lock L m pid id op pc fs' lock' pc' L' m' := by
  cases pc with
  | start =>
    cases op with
    | get key tag => exact start_get hs hm hkey h hstep
    | «exists» key =>
      cases hstep
      exact start_exists hs hm hkey h
    | delete key =>
      cases hstep
      exact start_delete hs hm hkey h
    | putNew key bytes =>
      cases hstep
      exact start_write hs hm h
    | putIfTag key bytes tag =>
      cases hstep
      exact start_write hs hm h
  | lockFile =>
    unfold stepCall at hstep
    split_ifs at hstep with hfree
    cases hstep
    exact lockFile_locked hs hm h hfree
  | locked =>
    cases op with
    | putNew key bytes => exact locked_putNew hs hm hkey h.1 h.2 hstep
    | putIfTag key bytes tag => exact locked_putIfTag hs hm hkey h.1 h.2 hstep
    | get key tag => cases hstep
    | «exists» key => cases hstep
    | delete key => cases hstep
  | opened i =>
    cases op with
    | get key tag =>
      cases hstep
      exact opened_get hs hm h
    | putIfTag key bytes tag => exact opened_putIfTag hs hm h hstep
    | putNew key bytes => cases hstep
    | «exists» key => cases hstep
    | delete key => cases hstep
  | checked =>
    cases hstep
    exact checked_write hs hm hvalid hkey h
  | created i =>
    cases hstep
    exact created_write hs hm hvalid hkey h
  | written => exact written_rename hs hm hvalid hkey h hstep
  | done r => cases hstep

end SrcControl.Objio
