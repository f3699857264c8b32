import SrcControl.Lib.LineText
import SrcControl.Repo.Refs

/-!
# The repository lock

Processes take the lock by creating a file, take over the file of a dead process, and
remove the file when they are done. Creating, reading and removing are one step each; a
process may die between any two.
-/

namespace SrcControl.RepoLock

open LineText

/-- What a process is doing. `opening`, `found`, `probing` and `stale` are inside `acquire`;
`created` has the file but has not written its id yet; `holding` is a `RepoLock`. -/
inductive Phase
  | unborn
  | idle
  | opening (attempt : Nat)
  | found
  | probing (holder : Nat)
  | stale
  | created
  | holding
  | dead
deriving DecidableEq

def Phase.running : Phase → Prop
  | .unborn | .dead => False
  | _ => True

instance (ph : Phase) : Decidable ph.running := by
  cases ph <;> unfold Phase.running <;> infer_instance

/-- The lock file: who created it, and the text its creator has written. -/
structure LockFile where
  creator : Nat
  text : List Char
deriving DecidableEq

/-- The directory and the processes; `pid` is the system's id of a process. -/
structure Sys where
  pid : Nat → Nat
  file : Option LockFile
  phase : Nat → Phase

def Sys.initial (pid : Nat → Nat) : Sys := ⟨pid, none, fun _ => .unborn⟩

def Sys.set (s : Sys) (p : Nat) (ph : Phase) : Sys :=
  { s with phase := Function.update s.phase p ph }

def Sys.withFile (s : Sys) (file : Option LockFile) : Sys := { s with file := file }

/-- The process id in a lock file: `text.trim().parse::<u32>()`. -/
def holderPid (text : List Char) : Option Nat := parseUnsigned (2 ^ 32) (trim Refs.isWhitespace text)

/-- `pid_is_dead`, asked by process `p`: not its own id, and no running process has it. -/
def PidIsDead (s : Sys) (p pid : Nat) : Prop :=
  pid ≠ s.pid p ∧ ∀ q, (s.phase q).running → s.pid q ≠ pid

/-- The write goes to the file the process created, wherever the path leads by now. -/
def writeText (p : Nat) (text : List Char) : Option LockFile → Option LockFile
  | some f => some (if f.creator = p then { f with text := text } else f)
  | none => none

inductive Action
  | start
  | acquire
  | createNew
  | read
  | probe
  | breakStale
  | writePid
  | drop
  | die
  | ioError
deriving DecidableEq

/-- One step of process `p`. -/
inductive Step (s : Sys) (p : Nat) : Action → Sys → Prop
  | start (h : s.phase p = .unborn) : Step s p .start (s.set p .idle)
  | acquire (h : s.phase p = .idle) : Step s p .acquire (s.set p (.opening 0))
  | created {k : Nat} (h : s.phase p = .opening k) (hf : s.file = none) :
      Step s p .createNew ((s.withFile (some ⟨p, []⟩)).set p .created)
  | exists {f : LockFile} (h : s.phase p = .opening 0) (hf : s.file = some f) :
      Step s p .createNew (s.set p .found)
  -- The second attempt does not look for a dead holder again: `Error::Locked`.
  | locked {k : Nat} {f : LockFile} (h : s.phase p = .opening (k + 1)) (hf : s.file = some f) :
      Step s p .createNew (s.set p .idle)
  | readPid {f : LockFile} {pid : Nat} (h : s.phase p = .found) (hf : s.file = some f)
      (ht : holderPid f.text = some pid) : Step s p .read (s.set p (.probing pid))
  -- No file, or no id in it: the lock is respected.
  | respected (h : s.phase p = .found) (ht : ∀ f, s.file = some f → holderPid f.text = none) :
      Step s p .read (s.set p .idle)
  | judgedDead {pid : Nat} (h : s.phase p = .probing pid) (hd : PidIsDead s p pid) :
      Step s p .probe (s.set p .stale)
  | judgedAlive {pid : Nat} (h : s.phase p = .probing pid) (hd : ¬ PidIsDead s p pid) :
      Step s p .probe (s.set p .idle)
  | breakStale (h : s.phase p = .stale) :
      Step s p .breakStale ((s.withFile none).set p (.opening 1))
  -- The write is best effort: any part of the text may reach the file.
  | writePid {text : List Char} (h : s.phase p = .created)
      (ht : text <+: showNat (s.pid p) ++ ['\n']) :
      Step s p .writePid ((s.withFile (writeText p text s.file)).set p .holding)
  | drop (h : s.phase p = .holding) : Step s p .drop ((s.withFile none).set p .idle)
  | die (h : (s.phase p).running) : Step s p .die (s.set p .dead)
  | ioError (h : (s.phase p).running) (hc : s.phase p ≠ .created) (hh : s.phase p ≠ .holding) :
      Step s p .ioError (s.set p .idle)

/-- A run whose every step satisfies `ok`. -/
inductive Run (ok : Sys → Nat → Action → Prop) (pid : Nat → Nat) : Sys → Prop
  | initial : Run ok pid (.initial pid)
  | step {s s' : Sys} {p : Nat} {a : Action} (h : Run ok pid s) (hok : ok s p a)
      (hs : Step s p a s') : Run ok pid s'

/-- No two live processes hold the lock, and dropping it removes one's own file. -/
def Exclusive (s : Sys) : Prop :=
  (∀ p q, s.phase p = .holding → s.phase q = .holding → p = q) ∧
  ∀ p s', Step s p .drop s' → ∀ f, s.file = some f → f.creator = p

/-- A takeover finds at the path no file, or the file of a process that is not running. -/
def TakesOverDead (s : Sys) (_ : Nat) : Action → Prop
  | .breakStale => ∀ f, s.file = some f → ¬ (s.phase f.creator).running
  | _ => True

/-- Between creating the file and dropping the lock. -/
def Owns (ph : Phase) : Prop := ph = .created ∨ ph = .holding

/-- An owner's file is the one at the path. -/
def Owned (s : Sys) : Prop :=
  ∀ p, Owns (s.phase p) → ∃ f, s.file = some f ∧ f.creator = p

theorem Owns.running {ph : Phase} (h : Owns ph) : ph.running := by
  rcases h with rfl | rfl <;> trivial

theorem owned_unique {s : Sys} (h : Owned s) {p q : Nat} (hp : Owns (s.phase p))
    (hq : Owns (s.phase q)) : p = q := by
  obtain ⟨f, hf, rfl⟩ := h p hp
  obtain ⟨g, hg, rfl⟩ := h q hq
  rw [hf] at hg
  cases hg
  rfl

theorem owned_exclusive {s : Sys} (h : Owned s) : Exclusive s := by
  refine ⟨fun p q hp hq => owned_unique h (Or.inr hp) (Or.inr hq), ?_⟩
  intro p s' hdrop f hf
  cases hdrop with
  | drop hp =>
    obtain ⟨g, hg, rfl⟩ := h p (Or.inr hp)
    rw [hf] at hg
    cases hg
    rfl

@[simp] theorem set_file (s : Sys) (p : Nat) (ph : Phase) : (s.set p ph).file = s.file := rfl

theorem set_phase_self (s : Sys) (p : Nat) (ph : Phase) : (s.set p ph).phase p = ph :=
  Function.update_self ..

theorem set_phase_ne (s : Sys) {p q : Nat} (ph : Phase) (h : q ≠ p) :
    (s.set p ph).phase q = s.phase q := Function.update_of_ne h ..

/-- A step that gives its process no file and leaves the path alone. -/
theorem owned_set {s : Sys} (h : Owned s) {p : Nat} {ph : Phase} (hph : ¬ Owns ph) :
    Owned (s.set p ph) := by
  intro q hq
  by_cases hqp : q = p
  · subst hqp
    rw [set_phase_self] at hq
    exact absurd hq hph
  · rw [set_phase_ne s ph hqp] at hq
    exact h q hq

/-- A step that changes the path when no other process owns the file. -/
theorem owned_alone {s : Sys} {p : Nat} {ph : Phase} {file : Option LockFile}
    (halone : ∀ q, q ≠ p → ¬ Owns (s.phase q))
    (hown : Owns ph → ∃ f, file = some f ∧ f.creator = p) : Owned ((s.withFile file).set p ph) := by
  intro q hq
  by_cases hqp : q = p
  · subst hqp
    rw [set_phase_self] at hq
    exact hown hq
  · rw [set_phase_ne _ ph hqp] at hq
    exact absurd hq (halone q hqp)

theorem owned_step {s s' : Sys} {p : Nat} {a : Action} (h : Owned s) (hok : TakesOverDead s p a)
    (hs : Step s p a s') : Owned s' := by
  cases hs with
  | start | acquire | «exists» | locked | readPid | respected | judgedDead | judgedAlive | die
    | ioError => exact owned_set h (by simp [Owns])
  | created hp hf =>
    refine owned_alone (fun q _ hq => ?_) fun _ => ⟨_, rfl, rfl⟩
    obtain ⟨f, hf', -⟩ := h q hq
    rw [hf] at hf'
    cases hf'
  | breakStale hp =>
    refine owned_alone (fun q _ hq => ?_) fun ho => absurd ho (by simp [Owns])
    obtain ⟨f, hf, rfl⟩ := h q hq
    exact hok f hf hq.running
  | writePid hp ht =>
    obtain ⟨f, hf, hc⟩ := h p (Or.inl hp)
    refine owned_alone (fun q hqp hq => hqp (owned_unique h hq (Or.inl hp))) fun _ => ?_
    rw [hf, writeText, if_pos hc]
    exact ⟨_, rfl, hc⟩
  | drop hp =>
    exact owned_alone (fun q hqp hq => hqp (owned_unique h hq (Or.inr hp)))
      fun ho => absurd ho (by simp [Owns])

theorem owned_run {pid : Nat → Nat} {s : Sys} (h : Run TakesOverDead pid s) : Owned s := by
  induction h with
  | initial =>
    intro p hp
    simp [Owns, Sys.initial] at hp
  | step _ hok hs ih => exact owned_step ih hok hs

/-- The lock excludes in every run whose takeovers hit only files of dead processes. -/
theorem takeover_of_dead_excludes (pid : Nat → Nat) (s : Sys) (h : Run TakesOverDead pid s) :
    Exclusive s := owned_exclusive (owned_run h)

/-! ### Runs of one process at a time -/

theorem set_set (s : Sys) (p : Nat) (a b : Phase) : (s.set p a).set p b = s.set p b := by
  rw [Sys.set, Sys.set, Function.update_idem]
  rfl

theorem withFile_set (s : Sys) (p : Nat) (a : Phase) (file : Option LockFile) :
    (s.set p a).withFile file = (s.withFile file).set p a := rfl

theorem withFile_withFile (s : Sys) (f g : Option LockFile) :
    (s.withFile f).withFile g = s.withFile g := rfl

section

variable {ok : Sys → Nat → Action → Prop} {pid : Nat → Nat} {s : Sys} {p : Nat}
  (hok : ∀ s p a, a ≠ .breakStale → ok s p a)

/-- The file process `p` leaves at the path when its write goes through. -/
def ownFile (s : Sys) (p : Nat) : LockFile := ⟨p, showNat (s.pid p) ++ ['\n']⟩

include hok

theorem run_creates {k : Nat} (h : Run ok pid s) (hp : s.phase p = .opening k)
    (hf : s.file = none) :
    Run ok pid ((s.withFile (some (ownFile s p))).set p .holding) := by
  have hcreate := h.step (hok _ _ _ (by decide)) (Step.created hp hf)
  have hwrite := hcreate.step (hok _ _ _ (by decide))
    (Step.writePid (set_phase_self ..) List.prefix_rfl)
  rw [withFile_set, set_set, withFile_withFile] at hwrite
  have hfile : writeText p (showNat (s.pid p) ++ ['\n']) (some ⟨p, []⟩) = some (ownFile s p) := by
    simp [writeText, ownFile]
  rw [← hfile]
  exact hwrite

theorem run_takes_free (h : Run ok pid s) (hp : s.phase p = .unborn) (hf : s.file = none) :
    Run ok pid ((s.withFile (some (ownFile s p))).set p .holding) := by
  have hstart := h.step (hok _ _ _ (by decide)) (Step.start hp)
  have hopen := hstart.step (hok _ _ _ (by decide)) (Step.acquire (set_phase_self ..))
  rw [set_set] at hopen
  have hown := run_creates hok hopen (set_phase_self ..) hf
  rwa [withFile_set, set_set] at hown

/-- A process that comes to a file of a dead process gets as far as judging it stale. -/
theorem run_judges_dead {f : LockFile} {n : Nat} (h : Run ok pid s) (hp : s.phase p = .unborn)
    (hf : s.file = some f) (ht : holderPid f.text = some n) (hne : s.pid p ≠ n)
    (hd : ∀ q, (s.phase q).running → s.pid q ≠ n) : Run ok pid (s.set p .stale) := by
  have hstart := h.step (hok _ _ _ (by decide)) (Step.start hp)
  have hopen := hstart.step (hok _ _ _ (by decide)) (Step.acquire (set_phase_self ..))
  have hfound := hopen.step (hok _ _ _ (by decide)) (Step.exists (set_phase_self ..) hf)
  have hread := hfound.step (hok _ _ _ (by decide)) (Step.readPid (set_phase_self ..) hf ht)
  rw [set_set, set_set, set_set] at hread
  have hdead : PidIsDead (s.set p (.probing n)) p n := by
    refine ⟨hne.symm, fun q hq => ?_⟩
    by_cases hqp : q = p
    · rw [hqp]
      exact hne
    · rw [set_phase_ne s _ hqp] at hq
      exact hd q hq
  have hstale := hread.step (hok _ _ _ (by decide)) (Step.judgedDead (set_phase_self ..) hdead)
  rwa [set_set] at hstale

theorem run_takes_over (h : Run ok pid s) (hp : s.phase p = .stale) (hb : ok s p .breakStale) :
    Run ok pid ((s.withFile (some (ownFile s p))).set p .holding) := by
  have hbroken := h.step hb (Step.breakStale hp)
  have hown := run_creates hok hbroken (set_phase_self ..) rfl
  rw [withFile_set, set_set, withFile_withFile] at hown
  exact hown

/-- Process 0 takes the lock and dies with it. -/
theorem run_dies (h : Run ok pid (.initial pid)) :
    Run ok pid (((Sys.initial pid).withFile (some (ownFile (.initial pid) 0))).set 0 .dead) := by
  have htake := run_takes_free hok h (p := 0) rfl rfl
  have hdie := htake.step (hok _ _ _ (by decide))
    (Step.die (by rw [set_phase_self]; trivial))
  rwa [set_set] at hdie

end

/-- Process 0 died holding the lock; process 1 has taken it over. -/
def takenOver : Sys :=
  let s := ((Sys.initial (· + 1)).withFile (some (ownFile (.initial (· + 1)) 0))).set 0 .dead
  ((s.set 1 .stale).withFile (some (ownFile (s.set 1 .stale) 1))).set 1 .holding

theorem dead_only {s : Sys} (hs : s.pid = (· + 1)) (h0 : ¬ (s.phase 0).running) (q : Nat)
    (hq : (s.phase q).running) : s.pid q ≠ 1 := by
  intro he
  simp only [hs] at he
  obtain rfl : q = 0 := by omega
  exact h0 hq

theorem takeover_of_dead_excludes_takenOver : Exclusive takenOver := by
  have hok : ∀ s p a, a ≠ Action.breakStale → TakesOverDead s p a := by
    intro s p a ha
    cases a <;> trivial
  have hjudge := run_judges_dead hok (run_dies hok (@Run.initial _ (· + 1))) (p := 1) rfl rfl
    (by decide : _ = some 1) (by decide) (dead_only rfl id)
  refine takeover_of_dead_excludes (· + 1) takenOver (run_takes_over hok hjudge rfl ?_)
  intro f hf
  cases hf
  exact id

/-- Two processes judge the same dead holder; the second removes the first one's live lock. -/
theorem takeover_race :
    ¬ ∀ (pid : Nat → Nat) (s : Sys), Run (fun _ _ _ => True) pid s → Exclusive s := by
  intro hall
  have hok : ∀ (s : Sys) (p : Nat) (a : Action), a ≠ Action.breakStale → True := by
    intros
    trivial
  have hfirst := run_judges_dead hok (run_dies hok (@Run.initial _ (· + 1))) (p := 1) rfl rfl
    (by decide : _ = some 1) (by decide) (dead_only rfl id)
  have hsecond := run_judges_dead hok hfirst (p := 2) rfl rfl
    (by decide : _ = some 1) (by decide) (dead_only rfl id)
  have hheld := run_takes_over hok hsecond (p := 1) rfl trivial
  have hboth := run_takes_over hok hheld (p := 2) rfl trivial
  have hsame := (hall _ _ hboth).1 1 2 rfl rfl
  cases hsame

end SrcControl.RepoLock
