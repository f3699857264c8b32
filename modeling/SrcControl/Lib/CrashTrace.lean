import SrcControl.Lib.Fallible

/-!
# Runs that may stop anywhere

A run changes a disk by calls, each of which may fail, and may fail after it took effect. It
keeps every disk it has left behind, so what holds of all of them holds whenever the process or
the machine stops. `Meets` is the triple of a run with one condition for each way it ends.
-/

namespace SrcControl.CrashTrace

open Fallible

variable {ε D H α β : Type}

/-- How a call ends; a late one took effect before it failed. -/
inductive Fate
  | done
  | failed
  | late
deriving DecidableEq, Repr

/-- The disk, what the process holds in memory, the disks that were, and the calls made. -/
structure Machine (D H : Type) where
  disk : D
  handle : H
  past : List D
  calls : Nat

abbrev RunM (ε D H : Type) := EStateM ε (Machine D H)

namespace Machine

def count (s : Machine D H) : Machine D H := { s with calls := s.calls + 1 }

def write (f : D → D) (s : Machine D H) : Machine D H :=
  { s with disk := f s.disk, past := s.disk :: s.past }

/-- The disk, now and whenever the run might have stopped. -/
def disks (s : Machine D H) : List D := s.disk :: s.past

end Machine

def call (fates : Nat → Fate) (failure : ε) (f : D → D) : RunM ε D H Unit := fun s =>
  match fates s.calls with
  | .done => .ok () (s.count.write f)
  | .failed => .error failure s.count
  | .late => .error failure (s.count.write f)

def orThrow : Except ε α → RunM ε D H α
  | .ok a => pure a
  | .error e => throw e

/-- Whether a run ended well, and the machine behind it. -/
def finished {σ α : Type} : EStateM.Result ε σ α → Bool × σ
  | .ok _ s => (true, s)
  | .error _ s => (false, s)

/-! ## Triples -/

def Meets (P : Machine D H → Prop) (m : RunM ε D H α) (Q : α → Machine D H → Prop)
    (E : Machine D H → Prop) : Prop :=
  ∀ s, P s → match m s with
    | .ok a s' => Q a s'
    | .error _ s' => E s'

namespace Meets

variable {P P' E E' : Machine D H → Prop} {Q Q' : α → Machine D H → Prop} {m : RunM ε D H α}

theorem ok (h : Meets P m Q E) {s s' : Machine D H} {a : α} (hs : P s) (hm : m s = .ok a s') :
    Q a s' := by
  have := h s hs
  rwa [hm] at this

theorem error (h : Meets P m Q E) {s s' : Machine D H} {e : ε} (hs : P s)
    (hm : m s = .error e s') : E s' := by
  have := h s hs
  rwa [hm] at this

theorem weaken (h : Meets P m Q E) (hP : ∀ s, P' s → P s) (hQ : ∀ a s, Q a s → Q' a s)
    (hE : ∀ s, E s → E' s) : Meets P' m Q' E' := by
  intro s hs
  cases hm : m s with
  | ok a s' => exact hQ a s' (h.ok (hP s hs) hm)
  | error e s' => exact hE s' (h.error (hP s hs) hm)

theorem pure (a : α) (h : ∀ s, P s → Q a s) : Meets P (pure a : RunM ε D H α) Q E :=
  fun s hs => h s hs

theorem bind {m : RunM ε D H α} {f : α → RunM ε D H β} {Q : α → Machine D H → Prop}
    {R : β → Machine D H → Prop} (hm : Meets P m Q E) (hf : ∀ a, Meets (Q a) (f a) R E) :
    Meets P (m >>= f) R E := by
  intro s hs
  cases hrun : (m >>= f) s with
  | ok b s' =>
    obtain ⟨a, s₁, hm', hf'⟩ := state_bind_ok hrun
    exact (hf a).ok (hm.ok hs hm') hf'
  | error e s' =>
    rcases state_bind_error hrun with hm' | ⟨a, s₁, hm', hf'⟩
    · exact hm.error hs hm'
    · exact (hf a).error (hm.ok hs hm') hf'

/-- What a run does next may depend on all it sees. -/
theorem get {f : Machine D H → RunM ε D H β} {R : β → Machine D H → Prop}
    (h : ∀ s, P s → Meets (fun t => t = s) (f s) R E) : Meets P (MonadState.get >>= f) R E :=
  fun s hs => h s hs s rfl

theorem orThrow {x : Except ε α} (hok : ∀ a, x = .ok a → ∀ s, P s → Q a s)
    (herror : ∀ s, P s → E s) : Meets P (orThrow x) Q E := by
  cases x with
  | ok a => exact pure a (hok a rfl)
  | error e => exact fun s hs => herror s hs

theorem modify {g : Machine D H → Machine D H} {Q : Unit → Machine D H → Prop}
    (h : ∀ s, P s → Q () (g s)) : Meets P (modify g : RunM ε D H Unit) Q E := fun s hs => h s hs

theorem call {fates : Nat → Fate} {failure : ε} {f : D → D} {Q : Unit → Machine D H → Prop}
    (hok : ∀ s, P s → Q () (s.count.write f)) (herror : ∀ s, P s → E s.count)
    (hlate : ∀ s, P s → E (s.count.write f)) :
    Meets P (call fates failure f) Q E := by
  intro s hs
  unfold CrashTrace.call
  cases fates s.calls with
  | done => exact hok s hs
  | failed => exact herror s hs
  | late => exact hlate s hs

theorem ite {c : Prop} [Decidable c] {m' : RunM ε D H α} (hm : c → Meets P m Q E)
    (hm' : ¬ c → Meets P m' Q E) : Meets P (if c then m else m') Q E := by
  split_ifs with hc
  · exact hm hc
  · exact hm' hc

/-- A loop keeps what each of its rounds keeps. -/
theorem foldlM {f : β → α → RunM ε D H β} {I : β → Machine D H → Prop} {xs : List α}
    (h : ∀ b, ∀ x ∈ xs, Meets (I b) (f b x) I E) (b : β) : Meets (I b) (xs.foldlM f b) I E := by
  induction xs generalizing b with
  | nil => exact pure b (fun _ hs => hs)
  | cons x xs ih =>
    exact bind (h b x List.mem_cons_self)
      (fun b' => ih (fun c y hy => h c y (List.mem_cons_of_mem x hy)) b')

end Meets

/-! ## What holds throughout -/

/-- `P` of the disk now and of every disk that was. -/
def Always (P : D → Prop) (s : Machine D H) : Prop := ∀ d ∈ s.disks, P d

theorem Always.now {P : D → Prop} {s : Machine D H} (h : Always P s) : P s.disk :=
  h s.disk List.mem_cons_self

theorem Always.write {P : D → Prop} {s : Machine D H} (h : Always P s) {f : D → D}
    (hf : P (f s.disk)) : Always P (s.write f) := by
  intro d hd
  rcases List.mem_cons.mp hd with rfl | hd
  · exact hf
  · exact h d hd

/-- `P` held throughout, and `K` of the disk now. -/
structure Both (P K : D → Prop) (s : Machine D H) : Prop where
  always : Always P s
  now : K s.disk

theorem Meets.call_both {P K K' : D → Prop} {fates : Nat → Fate} {failure : ε} {f : D → D}
    (h : ∀ d, P d → K d → P (f d) ∧ K' (f d)) :
    Meets (Both P K) (CrashTrace.call fates failure f : RunM ε D H Unit) (fun _ => Both P K')
      (Always P) := by
  refine Meets.call (fun s hs => ?_) (fun s hs => hs.always) (fun s hs => ?_)
  · obtain ⟨hP, hK⟩ := h s.disk hs.always.now hs.now
    exact ⟨Always.write (s := s.count) hs.always hP, hK⟩
  · exact Always.write (s := s.count) hs.always (h s.disk hs.always.now hs.now).1

/-- What only changes the handle leaves the disks alone. -/
theorem modify_both {P K : D → Prop} {g : Machine D H → Machine D H} {E : Machine D H → Prop}
    (hdisk : ∀ s, (g s).disk = s.disk) (hpast : ∀ s, (g s).past = s.past) :
    Meets (Both P K) (modify g : RunM ε D H Unit) (fun _ => Both P K) E := by
  refine Meets.modify (fun s hs => ⟨?_, by rw [hdisk]; exact hs.now⟩)
  intro d hd
  rw [Machine.disks, hdisk, hpast] at hd
  exact hs.always d hd

end SrcControl.CrashTrace
