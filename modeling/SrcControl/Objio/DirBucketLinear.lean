import SrcControl.Objio.DirBucketRuns

/-!
# The directory bucket as a map

Every run in which no delete takes a file away from under a `put_if_tag`, and no key is a name
the bucket takes for itself, is linearizable: the files of the keys are at every moment what the
calls that have taken effect leave in a map. A delete between the check and the rename of a
`put_if_tag` is undone by it, and no order of the calls explains that.
-/

namespace SrcControl.Objio

open Linearizability (Event Entry Linearizes Precedes Legal linearizes_nil)

variable {Tag : Type} [DecidableEq Tag] {tagOf : Bytes → Tag}

/-! ## Careful runs -/

/-- Keys are not names of the bucket's own, and a delete takes no file away while a `put_if_tag`
of that key has found its tag and not renamed yet. -/
def Careful (tagOf : Bytes → Tag) (c : Config Tag) : Move Tag → Prop
  | .invoke _ op => ¬Reserved op.key
  | .step pid => ∀ call q call', c.procs pid = some call → c.procs q = some call' →
    ¬Disturbs tagOf c.fs call.op call.pc call'
  | _ => True

/-- No call is running. -/
structure Idle (c : Config Tag) : Prop where
  procs : ∀ pid, c.procs pid = none
  sound : c.fs.Sound

variable {c c' c₀ : Config Tag} {H ev : List (Event (Op Tag) (Res Tag))}
  {L L' : List (Entry (Op Tag) (Res Tag))} {m m' m₀ : Path → Option Bytes} {pid : Nat}

/-- What holds of a call in progress, whatever step it has come to. -/
structure Known (c : Config Tag) (H : List (Event (Op Tag) (Res Tag))) (call : Call Tag) :
    Prop where
  below : call.id < c.nextId
  invoked : .invoke call.id call.op ∈ H
  valid : validateKey call.op.key = true
  free : ¬Reserved call.op.key

structure Inv (tagOf : Bytes → Tag) (m₀ : Path → Option Bytes) (c : Config Tag)
    (H : List (Event (Op Tag) (Res Tag))) (L : List (Entry (Op Tag) (Res Tag)))
    (m : Path → Option Bytes) : Prop where
  lin : Linearizes (mapApply tagOf) m₀ m H L
  agrees : ∀ key, ¬Reserved key → c.fs.read key = m key
  sound : c.fs.Sound
  lower : ∀ e ∈ L, e.id < c.nextId
  known : ∀ pid call, c.procs pid = some call → Known c H call
  distinct : ∀ p q a b, c.procs p = some a → c.procs q = some b → a.id = b.id → p = q
  good : ∀ pid call, c.procs pid = some call → Good tagOf c.fs c.lock L pid call

omit [DecidableEq Tag] in
theorem Known.mono {call : Call Tag} (h : Known c H call) (hn : c.nextId ≤ c'.nextId)
    (hH : H ⊆ ev) : Known c' ev call :=
  ⟨h.below.trans_le hn, hH h.invoked, h.valid, h.free⟩

omit [DecidableEq Tag] in
/-- The calls after one process's call is changed. -/
theorem procs_update {procs : Nat → Option (Call Tag)} {new : Option (Call Tag)} {q : Nat}
    {call : Call Tag} (h : Function.update procs pid new q = some call) :
    (q = pid ∧ new = some call) ∨ (q ≠ pid ∧ procs q = some call) := by
  by_cases heq : q = pid
  · subst heq
    rw [Function.update_self] at h
    exact .inl ⟨rfl, h⟩
  · rw [Function.update_of_ne heq] at h
    exact .inr ⟨heq, h⟩

omit [DecidableEq Tag] in
theorem released_of_ne {lock : Option Nat} {q : Nat} (hne : q ≠ pid) (h : lock = some q) :
    released lock pid = some q := by
  rw [released, if_neg (by rw [h]; exact fun heq => hne (Option.some.inj heq)), h]

theorem Inv.invoke {op : Op Tag} (h : Inv tagOf m₀ c H L m) (hfree : ¬Reserved op.key)
    (hact : act tagOf c (.invoke pid op) = some (c', ev)) : Inv tagOf m₀ c' (H ++ ev) L m := by
  rcases hp : c.procs pid with _ | call <;> simp only [act, hp] at hact
  · split_ifs at hact with hvalid
    obtain ⟨rfl, rfl⟩ := Prod.mk.inj (Option.some.inj hact)
    have hnew : Unborn L c.nextId := fun e he => Nat.ne_of_lt (h.lower e he)
    refine ⟨h.lin.invoke hnew, h.agrees, h.sound,
      fun e he => (h.lower e he).trans (Nat.lt_succ_self _), fun q call hq => ?_, fun q r a b hq hr hab => ?_, fun q call hq => ?_⟩
    · rcases procs_update hq with ⟨-, heq⟩ | ⟨-, hq⟩
      · cases heq
        exact ⟨Nat.lt_succ_self _, by simp, hvalid, hfree⟩
      · exact (h.known q call hq).mono (Nat.le_succ _) (List.subset_append_left _ _)
    · rcases procs_update hq with ⟨hqp, ha⟩ | ⟨-, hqold⟩ <;>
        rcases procs_update hr with ⟨hrp, hb⟩ | ⟨-, hrold⟩
      · exact hqp.trans hrp.symm
      · obtain rfl := Option.some.inj ha
        exact absurd hab (Nat.ne_of_gt (h.known r b hrold).below)
      · obtain rfl := Option.some.inj hb
        exact absurd hab (Nat.ne_of_lt (h.known q a hqold).below)
      · exact h.distinct q r a b hqold hrold hab
    · rcases procs_update hq with ⟨-, heq⟩ | ⟨-, hq⟩
      · cases heq
        exact hnew
      · exact h.good q call hq
  · cases hact

theorem Inv.step (h : Inv tagOf m₀ c H L m) (hcare : Careful tagOf c (.step pid))
    (hact : act tagOf c (.step pid) = some (c', ev)) :
    ∃ L' m', Inv tagOf m₀ c' (H ++ ev) L' m' := by
  rcases hp : c.procs pid with _ | ⟨id, op, pc⟩ <;> simp only [act, hp] at hact
  · cases hact
  · obtain ⟨⟨fs', lock', pc'⟩, hstep, heq⟩ := Option.map_eq_some_iff.mp hact
    obtain ⟨rfl, rfl⟩ := Prod.mk.inj heq
    have hknown := h.known pid _ hp
    obtain ⟨L', m', hstepped⟩ := stepCall_stepped h.sound h.agrees hknown.valid hknown.free
      (h.good pid _ hp) hstep
    refine ⟨L', m', ?_⟩
    rw [List.append_nil]
    have hlin : Linearizes (mapApply tagOf) m₀ m' H L' ∧ (∀ e ∈ L', e.id < c.nextId) ∧
        ∀ a, a ≠ id → Extends a L L' := by
      rcases hstepped.effect with ⟨rfl, rfl⟩ | ⟨r, hu, happly, rfl⟩
      · exact ⟨h.lin, h.lower, fun a _ => .refl a _⟩
      · refine ⟨h.lin.commit hknown.invoked hu happly, fun e he => ?_,
          fun a ha => .snoc (Ne.symm ha)⟩
        rcases List.mem_append.mp he with he | he
        · exact h.lower e he
        · exact List.mem_singleton.mp he ▸ hknown.below
    refine ⟨hlin.1, hstepped.agrees, hstepped.sound, hlin.2.1, fun q call hq => ?_,
      fun q r a b hq hr hab => ?_, fun q call hq => ?_⟩
    · rcases procs_update hq with ⟨-, heq⟩ | ⟨-, hq⟩
      · cases heq
        exact ⟨hknown.below, hknown.invoked, hknown.valid, hknown.free⟩
      · exact (h.known q call hq).mono (Nat.le_refl _) (fun _ hx => hx)
    · have hold : ∀ {q a}, Function.update c.procs pid (some ⟨id, op, pc'⟩) q = some a →
          ∃ b, c.procs q = some b ∧ b.id = a.id := by
        intro q a hq
        rcases procs_update hq with ⟨hqp, hnew⟩ | ⟨-, hqold⟩
        · obtain rfl := Option.some.inj hnew
          exact ⟨⟨id, op, pc⟩, hqp ▸ hp, rfl⟩
        · exact ⟨a, hqold, rfl⟩
      obtain ⟨a', hqa, ha⟩ := hold hq
      obtain ⟨b', hrb, hb⟩ := hold hr
      exact h.distinct q r a' b' hqa hrb (ha.trans (hab.trans hb.symm))
    · rcases procs_update hq with ⟨hqp, hnew⟩ | ⟨hne, hqold⟩
      · obtain rfl := Option.some.inj hnew
        exact hqp ▸ hstepped.good
      · have hk := h.known q call hqold
        have hid : call.id ≠ id := fun hid => hne (h.distinct q pid call _ hqold hp hid)
        exact hstepped.others q call hne hk.valid hk.free (h.good q call hqold)
          (hcare _ q call hp hqold) (hlin.2.2 _ hid)

/-- A process that leaves its call, with the lock if it held it. -/
theorem Inv.leave (h : Inv tagOf m₀ c H L m) (hlin : Linearizes (mapApply tagOf) m₀ m ev L)
    (hev : H ⊆ ev) : Inv tagOf m₀ ⟨c.fs, released c.lock pid, Function.update c.procs pid none,
      c.nextId⟩ ev L m := by
  have hold : ∀ {q a}, Function.update c.procs pid none q = some a →
      q ≠ pid ∧ c.procs q = some a := by
    intro q a hq
    rcases procs_update hq with ⟨-, heq⟩ | hq
    · cases heq
    · exact hq
  refine ⟨hlin, h.agrees, h.sound, h.lower, fun q call hq => ?_, fun q r a b hq hr hab => ?_,
    fun q call hq => ?_⟩
  · exact (h.known q call (hold hq).2).mono (Nat.le_refl _) hev
  · exact h.distinct q r a b (hold hq).2 (hold hr).2 hab
  · obtain ⟨hne, hq⟩ := hold hq
    exact (h.good q call hq).kept (h.known q call hq).valid h.sound (.refl _) (released_of_ne hne)
      (.refl _ _) (fun _ => rfl)

theorem Inv.move {mv : Move Tag} (h : Inv tagOf m₀ c H L m) (hcare : Careful tagOf c mv)
    (hact : act tagOf c mv = some (c', ev)) : ∃ L' m', Inv tagOf m₀ c' (H ++ ev) L' m' := by
  cases mv with
  | invoke pid op => exact ⟨L, m, h.invoke hcare hact⟩
  | step pid => exact h.step hcare hact
  | respond pid =>
    rcases hp : c.procs pid with _ | ⟨id, op, pc⟩ <;> simp only [act, hp] at hact
    · cases hact
    · cases pc <;> simp only at hact
      case done r =>
        obtain ⟨rfl, rfl⟩ := Prod.mk.inj (Option.some.inj hact)
        exact ⟨L, m, h.leave (h.lin.respond (h.good pid _ hp)) (List.subset_append_left _ _)⟩
      all_goals cases hact
  | die pid =>
    rcases hp : c.procs pid with _ | call <;> simp only [act, hp] at hact
    · cases hact
    · obtain ⟨rfl, rfl⟩ := Prod.mk.inj (Option.some.inj hact)
      rw [List.append_nil]
      exact ⟨L, m, h.leave h.lin (fun _ hx => hx)⟩

theorem inv_idle (hc : Idle c₀) : Inv tagOf c₀.fs.read c₀ [] [] c₀.fs.read where
  lin := linearizes_nil _ _
  agrees := fun _ _ => rfl
  sound := hc.sound
  lower := fun _ he => absurd he List.not_mem_nil
  known := fun pid _ hp => absurd ((hc.procs pid).symm.trans hp) (by simp)
  distinct := fun p _ _ _ hp => absurd ((hc.procs p).symm.trans hp) (by simp)
  good := fun pid _ hp => absurd ((hc.procs pid).symm.trans hp) (by simp)

theorem Run.inv (hc : Idle c₀) (h : Run tagOf (Careful tagOf) c₀ H c) :
    ∃ L m, Inv tagOf c₀.fs.read c H L m := by
  induction h with
  | nil => exact ⟨_, _, inv_idle hc⟩
  | snoc _ ok hact ih =>
    obtain ⟨L, m, hinv⟩ := ih
    exact hinv.move ok hact

/-- Any number of processes, in any order of their steps and with deaths between them: the calls
that returned have an order in which a map answers them alike and which agrees with real time,
and the files of the keys hold what that map holds, so a call cut by a death has had its whole
effect or none. -/
theorem bucket_linearizable (hc : Idle c₀) (h : Run tagOf (Careful tagOf) c₀ H c) :
    ∃ L m, Linearizes (mapApply tagOf) c₀.fs.read m H L ∧
      ∀ key, ¬Reserved key → c.fs.read key = m key := by
  obtain ⟨L, m, hinv⟩ := h.inv hc
  exact ⟨L, m, hinv.lin, hinv.agrees⟩

/-! ## Two runs -/

/-- Moves made one after the other. -/
def acts (tagOf : Bytes → Tag) (c : Config Tag) :
    List (Move Tag) → Option (Config Tag × List (Event (Op Tag) (Res Tag)))
  | [] => some (c, [])
  | mv :: mvs =>
    match act tagOf c mv with
    | none => none
    | some (c, ev) => (acts tagOf c mvs).map (fun (c, H) => (c, ev ++ H))

theorem Run.acts {mvs : List (Move Tag)} (h : Run tagOf (fun _ _ => True) c₀ H c)
    (hacts : Objio.acts tagOf c mvs = some (c', ev)) :
    Run tagOf (fun _ _ => True) c₀ (H ++ ev) c' := by
  induction mvs generalizing c H ev with
  | nil =>
    cases hacts
    rwa [List.append_nil]
  | cons mv mvs ih =>
    rw [Objio.acts] at hacts
    rcases hact : act tagOf c mv with _ | ⟨c₁, ev₁⟩ <;> simp only [hact] at hacts
    · cases hacts
    · obtain ⟨⟨c₂, H₂⟩, hrest, heq⟩ := Option.map_eq_some_iff.mp hacts
      obtain ⟨rfl, rfl⟩ := Prod.mk.inj heq
      rw [← List.append_assoc]
      exact ih (h.snoc trivial hact) hrest

/-- One key, `k`, with the value `[1]`. -/
def oneKey : Config Bytes :=
  ⟨⟨fun p => if p = ['k'] then some 0 else none, fun _ => [1], 1⟩, none, fun _ => none, 0⟩

theorem oneKey_idle : Idle oneKey where
  procs := fun _ => rfl
  sound := by
    have hlink : ∀ {p i}, oneKey.fs.link p = some i → p = ['k'] ∧ i = 0 := by
      intro p i h
      change (if p = ['k'] then some 0 else none) = some i at h
      split_ifs at h with hp
      exact ⟨hp, (Option.some.inj h).symm⟩
    refine ⟨fun hp hq => (hlink hp).1.trans (hlink hq).1.symm, fun hp => ?_⟩
    rw [(hlink hp).2]
    exact Nat.zero_lt_one

theorem not_reserved_k : ¬Reserved ['k'] := by
  rintro (h | ⟨k, pid, -, h⟩)
  · cases h
  · have hdot : '.' ∈ tmpPath k pid :=
      List.mem_append_right _ List.mem_cons_self
    rw [h] at hdot
    cases hdot with
    | tail _ h => cases h

/-- A read of `k` has been called. -/
theorem bucket_linearizable_read : ∃ c H,
    Run (fun b : Bytes => b) (Careful (fun b : Bytes => b)) oneKey H c ∧
      ∃ L m, Linearizes (mapApply (fun b : Bytes => b)) oneKey.fs.read m H L ∧
        ∀ key, ¬Reserved key → c.fs.read key = m key := by
  obtain ⟨c, hact⟩ : ∃ c, act (fun b : Bytes => b) oneKey (.invoke 1 (.get ['k'] none)) =
      some (c, [.invoke 0 (.get ['k'] none)]) := ⟨_, rfl⟩
  have hok : Careful (fun b : Bytes => b) oneKey (.invoke 1 (.get ['k'] none)) := not_reserved_k
  have hrun := Run.nil.snoc hok hact
  exact ⟨_, _, hrun, bucket_linearizable oneKey_idle hrun⟩

/-- Process 1 finds the value `[1]` it expects, process 2 deletes the key, process 1 renames, and
process 3 reads what process 1 wrote. -/
def undoneMoves : List (Move Bytes) :=
  [.invoke 1 (.putIfTag ['k'] [2] (some [1])), .step 1, .step 1, .step 1, .step 1,
    .invoke 2 (.delete ['k']), .step 2, .respond 2,
    .step 1, .step 1, .step 1, .respond 1,
    .invoke 3 (.get ['k'] none), .step 3, .step 3, .respond 3]

def undoneHistory : List (Event (Op Bytes) (Res Bytes)) :=
  [.invoke 0 (.putIfTag ['k'] [2] (some [1])), .invoke 1 (.delete ['k']), .respond 1 .deleted,
    .respond 0 (.swapped (some [2])), .invoke 2 (.get ['k'] none),
    .respond 2 (.fetched (.new [2] [2]))]

def swapEntry : Entry (Op Bytes) (Res Bytes) :=
  ⟨0, .putIfTag ['k'] [2] (some [1]), .swapped (some [2])⟩

def deleteEntry : Entry (Op Bytes) (Res Bytes) := ⟨1, .delete ['k'], .deleted⟩

def readEntry : Entry (Op Bytes) (Res Bytes) :=
  ⟨2, .get ['k'] none, .fetched (.new [2] [2])⟩

/-- All three calls returned, and the read was called last. -/
theorem undone_order {s s' : Path → Option Bytes} {L : List (Entry (Op Bytes) (Res Bytes))}
    (h : Linearizes (mapApply (fun b : Bytes => b)) s s' undoneHistory L) :
    L = [swapEntry, deleteEntry, readEntry] ∨ L = [deleteEntry, swapEntry, readEntry] := by
  have hswap : swapEntry ∈ L := by
    obtain ⟨op, hin⟩ := h.completed 0 (.swapped (some [2])) (by simp [undoneHistory])
    have hop := h.invoked _ hin
    simp only [undoneHistory, List.mem_cons, Event.invoke.injEq, reduceCtorEq] at hop
    simpa [swapEntry, show op = .putIfTag ['k'] [2] (some [1]) by simpa using hop] using hin
  have hdelete : deleteEntry ∈ L := by
    obtain ⟨op, hin⟩ := h.completed 1 .deleted (by simp [undoneHistory])
    have hop := h.invoked _ hin
    simp only [undoneHistory, List.mem_cons, Event.invoke.injEq, reduceCtorEq] at hop
    simpa [deleteEntry, show op = .delete ['k'] by simpa using hop] using hin
  have hread : readEntry ∈ L := by
    obtain ⟨op, hin⟩ := h.completed 2 (.fetched (.new [2] [2])) (by simp [undoneHistory])
    have hop := h.invoked _ hin
    simp only [undoneHistory, List.mem_cons, Event.invoke.injEq, reduceCtorEq] at hop
    simpa [readEntry, show op = .get ['k'] none by simpa using hop] using hin
  have hinj := List.inj_on_of_nodup_map h.nodup
  have hall : ∀ e ∈ L, e ∈ [swapEntry, deleteEntry, readEntry] := by
    intro e he
    have hinv := h.invoked e he
    simp only [undoneHistory, List.mem_cons, Event.invoke.injEq, reduceCtorEq, false_or, or_false,
      List.not_mem_nil] at hinv
    rcases hinv with ⟨hid, -⟩ | ⟨hid, -⟩ | ⟨hid, -⟩
    · rw [hinj he hswap hid]
      simp
    · rw [hinj he hdelete hid]
      simp
    · rw [hinj he hread hid]
      simp
  have hperm : L.Perm [swapEntry, deleteEntry, readEntry] := by
    refine (List.perm_ext_iff_of_nodup h.nodup.of_map (by decide)).mpr
      (fun e => ⟨hall e, fun he => ?_⟩)
    simp only [List.mem_cons, List.not_mem_nil, or_false] at he
    rcases he with rfl | rfl | rfl
    · exact hswap
    · exact hdelete
    · exact hread
  have hlast : ∀ a r, .respond a r ∈ undoneHistory.take 4 → Precedes L a 2 :=
    fun a r hr => h.realtime (List.take_append_drop 4 undoneHistory).symm hr ⟨_, hread, rfl⟩
  have hfirst := hlast 0 (.swapped (some [2])) (by decide)
  have hsecond := hlast 1 .deleted (by decide)
  obtain ⟨a, b, c, rfl⟩ := List.length_eq_three.mp hperm.length_eq
  have hnodup := h.nodup
  have htail : (([b, c] : List (Entry (Op Bytes) (Res Bytes))).map (·.id)).Nodup :=
    (List.nodup_cons.mp hnodup).2
  obtain ⟨ha, hfirst⟩ := hfirst.tail hnodup
  obtain ⟨-, hsecond⟩ := hsecond.tail hnodup
  have hb : b.id ≠ 2 := by
    rcases hfirst with h0 | hp
    · rcases hsecond with h1 | hp
      · omega
      · exact (hp.tail htail).1
    · exact (hp.tail htail).1
  have hamem := hall a (by simp)
  have hbmem := hall b (by simp)
  have hcmem := hall c (by simp)
  simp only [List.mem_cons, List.not_mem_nil, or_false] at hamem hbmem hcmem
  rcases hamem with rfl | rfl | rfl
  · rcases hbmem with rfl | rfl | rfl
    · exact absurd hnodup (by simp)
    · rcases hcmem with rfl | rfl | rfl
      · exact absurd hnodup (by simp)
      · exact absurd hnodup (by simp)
      · exact .inl rfl
    · exact absurd rfl hb
  · rcases hbmem with rfl | rfl | rfl
    · rcases hcmem with rfl | rfl | rfl
      · exact absurd hnodup (by simp)
      · exact absurd hnodup (by simp)
      · exact .inr rfl
    · exact absurd hnodup (by simp)
    · exact absurd rfl hb
  · exact absurd rfl ha

/-- No order of the calls lets the swap succeed, the delete succeed and the read find the new
value. -/
theorem delete_undone : ∃ c, Run (fun b : Bytes => b) (fun _ _ => True) oneKey undoneHistory c ∧
    ¬∃ L m, Linearizes (mapApply (fun b : Bytes => b)) oneKey.fs.read m undoneHistory L := by
  obtain ⟨c, hacts⟩ : ∃ c, acts (fun b : Bytes => b) oneKey undoneMoves =
      some (c, undoneHistory) := ⟨_, rfl⟩
  refine ⟨c, Run.nil.acts hacts, ?_⟩
  rintro ⟨L, m, hlin⟩
  have hlegal := hlin.legal
  rcases undone_order hlin with rfl | rfl
  · exact absurd hlegal.2.2.1 (by decide)
  · exact absurd hlegal.2.1 (by decide)

end SrcControl.Objio
