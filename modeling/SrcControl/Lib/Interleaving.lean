import Mathlib.Logic.Function.Basic
import Mathlib.Logic.Relation

/-!
# Interleaved processes

Processes with private states take turns on a shared state; a process that is never
scheduled again has stopped. A proof outline gives each process a claim that its own
steps establish and that every step of another process leaves true; along a run the
claims of all processes and the shared invariant then hold together.
-/

namespace SrcControl.Interleaving

/-- Processes over a shared state `σ`, with private states `π` and results `ρ`. -/
structure Program (σ π ρ : Type) where
  start : σ → π → Prop
  step : σ → π → σ → π ⊕ ρ → Prop

/-- One step taken: by whom, and what it did to the shared state. -/
structure Move (σ : Type) where
  pid : Nat
  before : σ
  after : σ

structure Config (σ π ρ : Type) where
  shared : σ
  procs : Nat → Option (π ⊕ ρ)
  hist : List (Move σ)

variable {σ π ρ : Type}

/-- A shared state on which nothing has run yet. -/
def Config.initial (s : σ) : Config σ π ρ := ⟨s, fun _ => none, []⟩

namespace Program

inductive Step (P : Program σ π ρ) : Config σ π ρ → Config σ π ρ → Prop
  | start {c : Config σ π ρ} {pid : Nat} {p : π} (hfree : c.procs pid = none)
      (h : P.start c.shared p) :
      Step P c ⟨c.shared, Function.update c.procs pid (some (.inl p)), c.hist⟩
  | move {c : Config σ π ρ} {pid : Nat} {p : π} {s : σ} {q : π ⊕ ρ}
      (hp : c.procs pid = some (.inl p)) (h : P.step c.shared p s q) :
      Step P c ⟨s, Function.update c.procs pid (some q), c.hist ++ [⟨pid, c.shared, s⟩]⟩

abbrev Run (P : Program σ π ρ) : Config σ π ρ → Config σ π ρ → Prop := Relation.ReflTransGen P.Step

/-- A process running alone. -/
inductive Path (P : Program σ π ρ) : σ → π → σ → π ⊕ ρ → Prop
  | refl (s : σ) (p : π) : Path P s p s (.inl p)
  | tail {s s' s'' : σ} {p p' : π} {q : π ⊕ ρ} (h : Path P s p s' (.inl p'))
      (hs : P.step s' p' s'' q) : Path P s p s'' q

/-- Running one process leaves the others where they are. -/
theorem Path.run_alone {P : Program σ π ρ} {s s' : σ} {p : π} {q : π ⊕ ρ} (h : P.Path s p s' q)
    {c : Config σ π ρ} {pid : Nat} (hs : c.shared = s) (hp : c.procs pid = some (.inl p)) :
    ∃ c', P.Run c c' ∧ c'.shared = s' ∧ c'.procs = Function.update c.procs pid (some q) := by
  induction h with
  | refl => exact ⟨c, .refl, hs, by rw [← hp, Function.update_eq_self]⟩
  | @tail _ _ _ p' _ _ hstep ih =>
    obtain ⟨c', hrun, hs', hp'⟩ := ih hp
    rw [← hs'] at hstep
    have hpid : c'.procs pid = some (.inl p') := by rw [hp', Function.update_self]
    refine ⟨_, hrun.tail (.move hpid hstep), rfl, ?_⟩
    rw [hp', Function.update_idem]

theorem Path.run {P : Program σ π ρ} {s s' : σ} {p : π} {q : π ⊕ ρ} (h : P.Path s p s' q)
    {c : Config σ π ρ} {pid : Nat} (hs : c.shared = s) (hp : c.procs pid = some (.inl p)) :
    ∃ c', P.Run c c' ∧ c'.shared = s' ∧ c'.procs pid = some q := by
  obtain ⟨c', hrun, hs', hprocs⟩ := h.run_alone hs hp
  exact ⟨c', hrun, hs', by rw [hprocs, Function.update_self]⟩

end Program

/-- Every process has ended, and none has an id from `n` on. -/
structure Ended (n : Nat) (c : Config σ π ρ) : Prop where
  done : ∀ pid q, c.procs pid = some q → ∃ r, q = .inr r
  fresh : ∀ pid, n ≤ pid → c.procs pid = none

theorem ended_initial (s : σ) : Ended (π := π) (ρ := ρ) 0 (.initial s) :=
  ⟨by simp [Config.initial], by simp [Config.initial]⟩

/-- After every process has ended, another one can run alone to its end. -/
theorem Ended.run {P : Program σ π ρ} {s₀ s' : σ} {n : Nat} {c : Config σ π ρ} (h : Ended n c)
    (hrun : P.Run (.initial s₀) c) {p : π} {r : ρ} (hstart : P.start c.shared p)
    (hpath : P.Path c.shared p s' (.inr r)) :
    ∃ c', P.Run (.initial s₀) c' ∧ c'.shared = s' ∧ Ended (n + 1) c' := by
  have hbegin := Program.Step.start (h.fresh n (Nat.le_refl n)) hstart
  have hp : Function.update c.procs n (some (.inl p)) n = some (.inl p) := Function.update_self ..
  have halone := @Program.Path.run_alone _ _ _ P _ _ _ _ hpath
    ⟨c.shared, Function.update c.procs n (some (.inl p)), c.hist⟩ n rfl hp
  obtain ⟨c', hrun', hs', hprocs⟩ := halone
  refine ⟨c', (hrun.tail hbegin).trans hrun', hs', fun pid q hq => ?_, fun pid hpid => ?_⟩
  · rw [hprocs] at hq
    by_cases hn : pid = n
    · subst hn
      rw [Function.update_self] at hq
      exact ⟨r, (Option.some.inj hq).symm⟩
    · simp only [Function.update_of_ne hn] at hq
      exact h.done pid q hq
  · have hn : pid ≠ n := by omega
    rw [hprocs]
    simp only [Function.update_of_ne hn]
    exact h.fresh pid (by omega)

/-- A proof outline: what each process claims of the history and of the shared state. -/
structure Outline (P : Program σ π ρ) where
  inv : σ → Prop
  rely : σ → σ → Prop
  claim : List (Move σ) → σ → Nat → π ⊕ ρ → Prop
  stable : ∀ {hist s s' pid q} {m : Move σ}, rely s s' → m.pid ≠ pid → claim hist s pid q →
    claim (hist ++ [m]) s' pid q
  start : ∀ {hist : List (Move σ)} {s pid p}, inv s → P.start s p → (∀ m ∈ hist, m.pid ≠ pid) →
    claim hist s pid (.inl p)
  step : ∀ {hist s pid p s' q}, inv s → claim hist s pid (.inl p) → P.step s p s' q →
    inv s' ∧ rely s s' ∧ claim (hist ++ [⟨pid, s, s'⟩]) s' pid q

namespace Outline

variable {P : Program σ π ρ}

/-- What an outline proves of a configuration. -/
structure Holds (O : Outline P) (c : Config σ π ρ) : Prop where
  inv : O.inv c.shared
  claims : ∀ pid q, c.procs pid = some q → O.claim c.hist c.shared pid q
  unused : ∀ pid, c.procs pid = none → ∀ m ∈ c.hist, m.pid ≠ pid

theorem holds_step (O : Outline P) {c c' : Config σ π ρ} (h : O.Holds c) (hs : P.Step c c') :
    O.Holds c' := by
  cases hs with
  | @start pid p hfree hstart =>
    refine ⟨h.inv, fun i q hq => ?_, fun i hi => ?_⟩
    all_goals simp only at *
    · by_cases hip : i = pid
      · subst hip
        rw [Function.update_self] at hq
        cases hq
        exact O.start h.inv hstart (h.unused i hfree)
      · rw [Function.update_of_ne hip] at hq
        exact h.claims i q hq
    · by_cases hip : i = pid
      · subst hip
        simp at hi
      · rw [Function.update_of_ne hip] at hi
        exact h.unused i hi
  | @move pid p s q hp hstep =>
    obtain ⟨hinv, hrely, hclaim⟩ := O.step h.inv (h.claims pid _ hp) hstep
    refine ⟨hinv, fun i q' hq => ?_, fun i hi m hm => ?_⟩
    all_goals simp only at *
    · by_cases hip : i = pid
      · subst hip
        rw [Function.update_self] at hq
        cases hq
        exact hclaim
      · rw [Function.update_of_ne hip] at hq
        exact O.stable hrely (Ne.symm hip) (h.claims i q' hq)
    · by_cases hip : i = pid
      · subst hip
        simp at hi
      · rw [Function.update_of_ne hip] at hi
        rcases List.mem_append.mp hm with hm | hm
        · exact h.unused i hi m hm
        · rw [List.mem_singleton.mp hm]
          exact Ne.symm hip

/-- The rule of a run: started from a state of the invariant, the outline holds. -/
theorem holds_run (O : Outline P) {s : σ} (hs : O.inv s) {c : Config σ π ρ}
    (h : P.Run (.initial s) c) : O.Holds c := by
  induction h with
  | refl => exact ⟨hs, by simp [Config.initial], by simp [Config.initial]⟩
  | tail _ hstep ih => exact O.holds_step ih hstep

end Outline

end SrcControl.Interleaving
