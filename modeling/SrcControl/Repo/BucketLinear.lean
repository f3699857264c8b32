import SrcControl.Repo.BucketSteps
import SrcControl.Core.PackSafe
import SrcControl.Lib.LossyText

/-!
# The refs of a bucket are one map

Any number of clients, in any order of their bucket operations, with operations that fail before or
after their effect and clients that die: the calls that returned are those of a map of branches
with a conditional move, and an update that gave up has not been made. The log never loses an
entry, and every view is the fold of a part of it.
-/

namespace SrcControl.BucketTransport

open Linearizability (Event Entry Linearizes linearizes_nil)
open Objio (Path)
open Pack (Zstd)
open WalFormat (Manifest LogEntry MAX_LIST MAX_NAME MAX_HASH FitsString)

/-! ## Calls whose arguments a log entry can hold -/

/-- A branch name and a number of pending packs within the caps of the format. -/
def Fitting {Tag : Type} (c : Config Tag) : Move → Prop
  | .invoke pid (.updateRef branch id _) => FitsString MAX_NAME branch ∧ FitsId id ∧
    (c.clients pid).pendingPacks.length < MAX_LIST
  | _ => True

theorem length_utf8_ofList (cs : List Char) :
    (utf8 (String.ofList cs)).length = (LossyText.encode cs).length := by
  rw [utf8, String.toByteArray_ofList]
  simp [LossyText.encode, List.utf8Encode]

theorem utf8Size_hexDigit (n : Nat) : (hexDigit n).utf8Size = 1 := by
  have hchars : ∀ c ∈ "0123456789abcdef".toList, c.utf8Size = 1 := by
    intro c hc
    have hlist : "0123456789abcdef".toList = ['0', '1', '2', '3', '4', '5', '6', '7', '8', '9',
        'a', 'b', 'c', 'd', 'e', 'f'] := rfl
    simp only [hlist, List.mem_cons, List.not_mem_nil, or_false] at hc
    rcases hc with rfl | rfl | rfl | rfl | rfl | rfl | rfl | rfl | rfl | rfl | rfl | rfl | rfl |
      rfl | rfl | rfl <;> rfl
  rw [hexDigit, List.getD_eq_getElem?_getD]
  cases h : "0123456789abcdef".toList[n]? with
  | none => rfl
  | some c => exact hchars c (List.mem_of_getElem? h)

theorem length_hexEncode (bs : Bytes) : (utf8 (hexEncode bs)).length = 2 * bs.length := by
  rw [hexEncode, length_utf8_ofList, LossyText.encode]
  induction bs with
  | nil => rfl
  | cons x bs ih =>
    rw [List.flatMap_cons, List.flatMap_append, List.length_append, ih, List.length_cons]
    simp [utf8Size_hexDigit]
    omega

variable {Tag : Type} {z : Zstd} {hash : Bytes → Bytes} {tagOf : Bytes → Tag}

theorem upload_ok {objects : List (ObjectId × Bytes)} {u : Upload}
    (h : upload z hash objects = .ok u) :
    u.objects = objects ∧ ∃ x, u.hash = hexEncode (hash x) := by
  unfold upload at h
  split at h
  · cases h
  · cases h
    exact ⟨rfl, _, rfl⟩

/-! ## The invariant of a run -/

structure Inv (tagOf : Bytes → Tag) (c : Config Tag) (H : List (Event Op Res)) (L : Entries)
    (log : List LogEntry) : Prop where
  lin : Linearizes apply ∅ (refsOf log) H L
  stands : Stands c.bucket log
  transports : ∀ pid, TransportAt tagOf c.bucket log (c.clients pid)
  lower : ∀ e ∈ L, e.id < c.nextId
  known : ∀ pid call, c.calls pid = some call →
    call.id < c.nextId ∧ .invoke call.id call.op ∈ H
  distinct : ∀ p q a d, c.calls p = some a → c.calls q = some d → a.id = d.id → p = q
  calls : ∀ pid call, c.calls pid = some call →
    PcAt tagOf c.bucket log L call.id call.op (c.clients pid).pendingPacks call.pc

variable {c c' : Config Tag} {H ev : List (Event Op Res)} {L : Entries} {log : List LogEntry}
  {pid : Nat}

theorem transportAt_empty {b : Path → Option Bytes} : TransportAt tagOf b log .empty where
  view := by
    intro v hv
    cases hv
  pending := fun _ hp => absurd hp List.not_mem_nil

theorem inv_initial : Inv tagOf (.initial : Config Tag) [] [] [] where
  lin := linearizes_nil _ _
  stands := ⟨.nil, by simp, by simp [packsOf], fun _ => rfl, fun hne => absurd rfl hne,
    fun _ _ hx => by cases hx⟩
  transports := fun _ => transportAt_empty
  lower := fun _ he => absurd he List.not_mem_nil
  known := fun _ _ hp => by cases hp
  distinct := fun _ _ _ _ hp => by cases hp
  calls := fun _ _ hp => by cases hp

/-- What a call starts with. -/
theorem start_at {id : Nat} {op : Op} {t t' : Transport Tag} {pc : Pc Tag} {b : Path → Option Bytes}
    (hhash : ∀ x, (hash x).length = 32) (ht : TransportAt tagOf b log t) (hu : Unborn L id)
    (hfit : ∀ branch tip expectedOld, op = .updateRef branch tip expectedOld →
      FitsString MAX_NAME branch ∧ FitsId tip ∧ t.pendingPacks.length < MAX_LIST)
    (h : start z hash t op = (t', pc)) :
    TransportAt tagOf b log t' ∧ PcAt tagOf b log L id op t'.pendingPacks pc := by
  have hname : ∀ x, FitsString MAX_HASH (hexEncode (hash x)) := fun x => by
    rw [FitsString, length_hexEncode, hhash]
    decide
  cases op with
  | listRefs =>
    cases h
    exact ⟨ht, .inl ⟨rfl, rfl, hu⟩⟩
  | putPack objects =>
    rw [start] at h
    cases hup : upload z hash objects with
    | error e =>
      rw [hup] at h
      cases h
      exact ⟨ht, trivial⟩
    | ok u =>
      rw [hup] at h
      cases h
      obtain ⟨rfl, x, hx⟩ := upload_ok hup
      exact ⟨ht, hu, by rw [hx]; exact hname x, .inl rfl⟩
  | updateRef branch tip expectedOld =>
    obtain ⟨hbranch, htip, hlen⟩ := hfit branch tip expectedOld rfl
    rw [start] at h
    cases hv : Refs.validateBranchName branch with
    | error e =>
      rw [hv] at h
      cases h
      exact ⟨ht, trivial⟩
    | ok _ =>
      rw [hv] at h
      simp only at h
      split_ifs at h with hstaged
      · cases h
        exact ⟨ht.take, attempt_at hu ⟨branch, tip, expectedOld, rfl, hbranch, htip, hlen.le,
          ht.pending⟩ 0⟩
      · cases hup : upload z hash t.staged with
        | error e =>
          rw [hup] at h
          cases h
          exact ⟨ht, trivial⟩
        | ok u =>
          rw [hup] at h
          cases h
          obtain ⟨-, x, hx⟩ := upload_ok hup
          have hfits : FitsString MAX_HASH u.hash := by
            rw [hx]
            exact hname x
          have hpush := ht.push hfits
          refine ⟨⟨ht.view, ht.pending⟩, hu, hfits, .inr ⟨branch, tip, expectedOld, rfl, hbranch,
            htip, ?_, hpush.pending⟩⟩
          rw [List.length_append, List.length_singleton]
          exact hlen

theorem calls_update {calls : Nat → Option (Call Tag)} {new : Option (Call Tag)} {q : Nat}
    {call : Call Tag} (h : Function.update calls pid new q = some call) :
    (q = pid ∧ new = some call) ∨ (q ≠ pid ∧ calls q = some call) := by
  by_cases heq : q = pid
  · subst heq
    rw [Function.update_self] at h
    exact .inl ⟨rfl, h⟩
  · rw [Function.update_of_ne heq] at h
    exact .inr ⟨heq, h⟩

/-- A client leaves its call, and keeps its transport or is replaced. -/
theorem Inv.leave {clients : Nat → Transport Tag} (h : Inv tagOf c H L log)
    (hlin : Linearizes apply ∅ (refsOf log) (H ++ ev) L)
    (hclients : ∀ q, clients q = c.clients q ∨ (q = pid ∧ clients q = .empty)) :
    Inv tagOf ⟨c.bucket, clients, Function.update c.calls pid none, c.nextId⟩ (H ++ ev) L log := by
  have hold : ∀ {q a}, Function.update c.calls pid none q = some a →
      q ≠ pid ∧ c.calls q = some a := by
    intro q a hq
    rcases calls_update hq with ⟨-, heq⟩ | hq
    · cases heq
    · exact hq
  refine ⟨hlin, h.stands, fun q => ?_, h.lower, fun q call hq => ?_, fun p q a d ha hd had => ?_,
    fun q call hq => ?_⟩
  · rcases hclients q with heq | ⟨-, heq⟩ <;> simp only [heq]
    · exact h.transports q
    · exact transportAt_empty
  · exact ⟨(h.known q call (hold hq).2).1, List.mem_append_left _ (h.known q call (hold hq).2).2⟩
  · exact h.distinct p q a d (hold ha).2 (hold hd).2 had
  · obtain ⟨hne, hq⟩ := hold hq
    rcases hclients q with heq | ⟨heq, -⟩
    · simp only [heq]
      exact h.calls q call hq
    · exact absurd heq hne

variable [DecidableEq Tag]

theorem Inv.invoke {op : Op} (hhash : ∀ x, (hash x).length = 32) (h : Inv tagOf c H L log)
    (hfit : Fitting c (.invoke pid op))
    (hact : act z hash tagOf c (.invoke pid op) = some (c', ev)) :
    Inv tagOf c' (H ++ ev) L log := by
  rcases hp : c.calls pid with _ | call <;> simp only [act, hp] at hact
  · rcases hs : start z hash (c.clients pid) op with ⟨t, pc⟩
    rw [hs] at hact
    obtain ⟨rfl, rfl⟩ := Prod.mk.inj (Option.some.inj hact)
    have hunborn : Unborn L c.nextId := fun e he => (h.lower e he).ne
    obtain ⟨ht, hpc⟩ := start_at hhash (h.transports pid) hunborn
      (fun branch tip expectedOld hop => by subst hop; exact hfit) hs
    refine ⟨h.lin.invoke hunborn, h.stands, fun q => ?_, fun e he => (h.lower e he).trans
      (Nat.lt_succ_self _), fun q call hq => ?_, fun p q a d ha hd had => ?_, fun q call hq => ?_⟩
    · by_cases hq : q = pid
      · subst hq
        simp only [Function.update_self]
        exact ht
      · simp only [Function.update_of_ne hq]
        exact h.transports q
    · rcases calls_update hq with ⟨-, hnew⟩ | ⟨-, hold⟩
      · cases hnew
        exact ⟨Nat.lt_succ_self _, by simp⟩
      · exact ⟨(h.known q call hold).1.trans (Nat.lt_succ_self _),
          List.mem_append_left _ (h.known q call hold).2⟩
    · rcases calls_update ha with ⟨hpa, ha⟩ | ⟨-, ha⟩ <;>
        rcases calls_update hd with ⟨hqd, hd⟩ | ⟨-, hd⟩
      · rw [hpa, hqd]
      · cases ha
        exact absurd had.symm (h.known q d hd).1.ne
      · cases hd
        exact absurd had (h.known p a ha).1.ne
      · exact h.distinct p q a d ha hd had
    · rcases calls_update hq with ⟨rfl, hnew⟩ | ⟨hne, hold⟩
      · cases hnew
        simp only [Function.update_self]
        exact hpc
      · simp only [Function.update_of_ne hne]
        exact h.calls q call hold
  · cases hact

theorem Inv.stage {id : ObjectId} {bytes : Bytes} (h : Inv tagOf c H L log)
    (hact : act z hash tagOf c (.stage pid id bytes) = some (c', ev)) :
    Inv tagOf c' (H ++ ev) L log := by
  rcases hp : c.calls pid with _ | call <;> simp only [act, hp] at hact
  · split_ifs at hact with hid
    · obtain ⟨rfl, rfl⟩ := Prod.mk.inj (Option.some.inj hact)
      rw [List.append_nil]
      have hsame : ∀ q, (Function.update c.clients pid { c.clients pid with
            staged := (c.clients pid).staged ++ [(id, bytes)] } q).view = (c.clients q).view ∧
          (Function.update c.clients pid { c.clients pid with
            staged := (c.clients pid).staged ++ [(id, bytes)] } q).pendingPacks =
              (c.clients q).pendingPacks := by
        intro q
        by_cases hq : q = pid
        · subst hq
          rw [Function.update_self]
          exact ⟨rfl, rfl⟩
        · rw [Function.update_of_ne hq]
          exact ⟨rfl, rfl⟩
      refine ⟨h.lin, h.stands, fun q => ⟨?_, ?_⟩, h.lower, h.known, h.distinct,
        fun q call hq => ?_⟩
      · simp only [(hsame q).1]
        exact (h.transports q).view
      · simp only [(hsame q).2]
        exact (h.transports q).pending
      · simp only [(hsame q).2]
        exact h.calls q call hq
  · cases hact

/-- The step of one client, with what it leaves of the claims of the others. -/
theorem Inv.step {fate : Fate}
    (htags : ∀ m m' : Manifest, tagOf m.encode = tagOf m'.encode → m.encode = m'.encode)
    (h : Inv tagOf c H L log) (hact : act z hash tagOf c (.step pid fate) = some (c', ev)) :
    ∃ L' log', Inv tagOf c' (H ++ ev) L' log' ∧ log <+: log' := by
  rcases hp : c.calls pid with _ | ⟨id, op, pc⟩ <;> simp only [act, hp] at hact
  · cases hact
  · obtain ⟨bop, hop, hact⟩ := Option.map_eq_some_iff.mp hact
    rcases hm : meets tagOf c.bucket bop fate with ⟨b', res⟩
    rcases ha : advance (c.clients pid) op pc res with ⟨t', pc'⟩
    rw [hm] at hact
    simp only [ha] at hact
    obtain ⟨rfl, rfl⟩ := Prod.mk.inj hact
    rw [List.append_nil]
    obtain ⟨hid, hinv⟩ := h.known pid _ hp
    obtain ⟨log', L', hstep⟩ := advance_stepped htags h.stands (h.transports pid)
      (h.calls pid _ hp) hop hm ha
    have hlin : Linearizes apply ∅ (refsOf log') H L' ∧ (∀ e ∈ L', e.id < c.nextId) ∧
        ∀ other, other ≠ id → Extends other L L' := by
      rcases hstep.effect with ⟨rfl, hrefs⟩ | ⟨r, hu, happly, rfl⟩
      · exact ⟨hrefs ▸ h.lin, h.lower, fun other _ => .refl other _⟩
      · refine ⟨h.lin.commit hinv hu happly, fun e he => ?_, fun other hne => .snoc hne.symm⟩
        rcases List.mem_append.mp he with he | he
        · exact h.lower e he
        · rwa [List.mem_singleton.mp he]
    refine ⟨L', log', ⟨hlin.1, hstep.stands, fun q => ?_, hlin.2.1, fun q call hq => ?_,
      fun p q a d hpa hqd had => ?_, fun q call hq => ?_⟩, hstep.grows⟩
    · by_cases hq : q = pid
      · subst hq
        simp only [Function.update_self]
        exact hstep.transport
      · simp only [Function.update_of_ne hq]
        exact (h.transports q).mono hstep.keeps hstep.grows
    · rcases calls_update hq with ⟨-, hnew⟩ | ⟨-, hold⟩
      · cases hnew
        exact ⟨hid, hinv⟩
      · exact h.known q call hold
    · rcases calls_update hpa with ⟨hpp, ha'⟩ | ⟨hpne, ha'⟩ <;>
        rcases calls_update hqd with ⟨hqq, hd'⟩ | ⟨hqne, hd'⟩
      · rw [hpp, hqq]
      · cases ha'
        exact absurd (h.distinct q pid d _ hd' hp had.symm) hqne
      · cases hd'
        exact absurd (h.distinct p pid a _ ha' hp had) hpne
      · exact h.distinct p q a d ha' hd' had
    · rcases calls_update hq with ⟨rfl, hnew⟩ | ⟨hne, hold⟩
      · cases hnew
        simp only [Function.update_self]
        exact hstep.pc
      · have hother : call.id ≠ id := fun heq => hne (h.distinct q pid call _ hold hp heq)
        simp only [Function.update_of_ne hne]
        exact (h.calls q call hold).mono hstep.keeps hstep.grows (hlin.2.2 _ hother)

theorem Inv.move {mv : Move} (hhash : ∀ x, (hash x).length = 32)
    (htags : ∀ m m' : Manifest, tagOf m.encode = tagOf m'.encode → m.encode = m'.encode)
    (h : Inv tagOf c H L log) (hfit : Fitting c mv) (hact : act z hash tagOf c mv = some (c', ev)) :
    ∃ L' log', Inv tagOf c' (H ++ ev) L' log' ∧ log <+: log' := by
  cases mv with
  | invoke pid op => exact ⟨L, log, h.invoke hhash hfit hact, List.prefix_refl _⟩
  | stage pid id bytes => exact ⟨L, log, h.stage hact, List.prefix_refl _⟩
  | step pid fate => exact h.step htags hact
  | respond pid =>
    rcases hp : c.calls pid with _ | ⟨id, op, pc⟩ <;> simp only [act, hp] at hact
    · cases hact
    · cases pc <;> simp only at hact
      case done r =>
        obtain ⟨rfl, rfl⟩ := Prod.mk.inj (Option.some.inj hact)
        refine ⟨L, log, h.leave ?_ (fun _ => .inl rfl), List.prefix_refl _⟩
        have hres : ResAt L id op r := h.calls pid _ hp
        rcases r with (e | e | e) | reply
        · exact (List.append_nil H).symm ▸ h.lin
        · exact h.lin.respond hres
        · exact (List.append_nil H).symm ▸ h.lin
        · exact h.lin.respond hres
      all_goals cases hact
  | die pid =>
    obtain ⟨rfl, rfl⟩ := Prod.mk.inj (Option.some.inj hact)
    refine ⟨L, log, h.leave (by rw [List.append_nil]; exact h.lin) (fun q => ?_),
      List.prefix_refl _⟩
    by_cases hq : q = pid
    · subst hq
      exact .inr ⟨rfl, Function.update_self ..⟩
    · exact .inl (Function.update_of_ne hq ..)

/-- A run from a state of the invariant ends in one, and the log has only grown. -/
theorem Run.inv {c₀ : Config Tag} {H₀ : List (Event Op Res)} {L₀ : Entries} {log₀ : List LogEntry}
    (hhash : ∀ x, (hash x).length = 32)
    (htags : ∀ m m' : Manifest, tagOf m.encode = tagOf m'.encode → m.encode = m'.encode)
    (h₀ : Inv tagOf c₀ H₀ L₀ log₀) (h : Run z hash tagOf Fitting c₀ H c) :
    ∃ L log, Inv tagOf c (H₀ ++ H) L log ∧ log₀ <+: log := by
  induction h with
  | nil => exact ⟨L₀, log₀, by rwa [List.append_nil], List.prefix_refl _⟩
  | snoc _ ok hact ih =>
    obtain ⟨L, log, hinv, hgrow⟩ := ih
    obtain ⟨L', log', hinv', hgrow'⟩ := hinv.move hhash htags ok hact
    rw [List.append_assoc] at hinv'
    exact ⟨L', log', hinv', hgrow.trans hgrow'⟩

/-! ## A first push -/

/-- Moves made one after the other. -/
def acts (z : Zstd) (hash : Bytes → Bytes) (tagOf : Bytes → Tag) (c : Config Tag) :
    List Move → Option (Config Tag × List (Event Op Res))
  | [] => some (c, [])
  | mv :: mvs =>
    match act z hash tagOf c mv with
    | none => none
    | some (c, ev) => (acts z hash tagOf c mvs).map (fun r => (r.1, ev ++ r.2))

theorem Run.acts {c₀ : Config Tag} {mvs : List Move} (h : Run z hash tagOf Fitting c₀ H c)
    (hstep : ∀ (c : Config Tag), ∀ mv ∈ mvs, Fitting c mv)
    (hacts : BucketTransport.acts z hash tagOf c mvs = some (c', ev)) :
    Run z hash tagOf Fitting c₀ (H ++ ev) c' := by
  induction mvs generalizing c H ev with
  | nil =>
    cases hacts
    rwa [List.append_nil]
  | cons mv mvs ih =>
    rw [BucketTransport.acts] at hacts
    rcases hact : act z hash tagOf c mv with _ | ⟨c₁, ev₁⟩ <;> simp only [hact] at hacts
    · cases hacts
    · obtain ⟨⟨c₂, H₂⟩, hrest, heq⟩ := Option.map_eq_some_iff.mp hacts
      obtain ⟨rfl, rfl⟩ := Prod.mk.inj heq
      rw [← List.append_assoc]
      exact ih (h.snoc (hstep c mv List.mem_cons_self) hact)
        (fun c mv hmv => hstep c mv (List.mem_cons_of_mem _ hmv)) hrest

def zeroHash (_ : Bytes) : Bytes := List.replicate 32 0

def firstTip : ObjectId := ⟨List.replicate 32 1⟩

/-- An update of an unborn branch, read, claimed and committed. -/
theorem firstPush_run : ∃ c : Config Bytes,
    Run Pack.testZstd zeroHash (fun b => b) Fitting .initial
      [.invoke 0 (.updateRef "main" firstTip none)] c ∧ c.bucket MANIFEST ≠ none := by
  obtain ⟨c, hact⟩ : ∃ c, act Pack.testZstd zeroHash (fun b : Bytes => b) .initial
      (.invoke 1 (.updateRef "main" firstTip none)) =
        some (c, [.invoke 0 (.updateRef "main" firstTip none)]) := ⟨_, rfl⟩
  have hfit : Fitting (.initial : Config Bytes) (.invoke 1 (.updateRef "main" firstTip none)) :=
    ⟨by decide, rfl, by decide⟩
  obtain ⟨c', hacts, hm⟩ : ∃ c', acts Pack.testZstd zeroHash (fun b : Bytes => b) c
      [.step 1 .answered, .step 1 .answered, .step 1 .answered] = some (c', []) ∧
        c'.bucket MANIFEST ≠ none := by
    cases hact
    exact ⟨_, rfl, by decide⟩
  refine ⟨c', (Run.nil.snoc hfit hact).acts (fun c mv hmv => ?_) hacts, hm⟩
  simp only [List.mem_cons, List.not_mem_nil, or_false] at hmv
  rcases hmv with rfl | rfl | rfl <;> trivial

theorem id_tags (m m' : Manifest)
    (h : (fun b : Bytes => b) m.encode = (fun b : Bytes => b) m'.encode) : m.encode = m'.encode := h

/-! ## The results -/

/-- However the bucket operations of the clients interleave, fail or stop: the calls that returned
have an order, in agreement with real time, in which one map of branches answers them alike; the
map is what the log in the bucket folds to, and a call that gave up has not moved a branch. -/
theorem refs_linearizable (hhash : ∀ x, (hash x).length = 32)
    (htags : ∀ m m' : Manifest, tagOf m.encode = tagOf m'.encode → m.encode = m'.encode)
    (h : Run z hash tagOf Fitting .initial H c) :
    ∃ L log, Linearizes apply ∅ (refsOf log) H L ∧ Stands c.bucket log ∧
      ∀ pid id op msg, c.calls pid = some ⟨id, op, .done (.error (.contention msg))⟩ →
        ∀ e ∈ L, e.id ≠ id := by
  obtain ⟨L, log, hinv, -⟩ := h.inv hhash htags inv_initial
  exact ⟨L, log, hinv.lin, hinv.stands, fun pid id op msg hp => hinv.calls pid _ hp⟩

theorem refs_linearizable_first : ∃ c : Config Bytes, c.bucket MANIFEST ≠ none ∧
    ∃ L log, Linearizes apply ∅ (refsOf log) [.invoke 0 (.updateRef "main" firstTip none)] L ∧
      Stands c.bucket log := by
  obtain ⟨c, hrun, hm⟩ := firstPush_run
  obtain ⟨L, log, hlin, hstands, -⟩ := refs_linearizable (fun _ => rfl) id_tags hrun
  exact ⟨c, hm, L, log, hlin, hstands⟩

end SrcControl.BucketTransport
