import Mathlib.Data.List.Basic
import Mathlib.Tactic.Common

/-!
# Lists of fallible steps

A fold or a map over a list whose steps can fail, and a bound that serves every
element of a list at once.
-/

namespace SrcControl.Fallible

variable {ε α β : Type}

theorem bind_ok {x : Except ε α} {f : α → Except ε β} {b : β} (h : x >>= f = .ok b) :
    ∃ a, x = .ok a ∧ f a = .ok b := by
  cases x with
  | error e => cases h
  | ok a => exact ⟨a, rfl, h⟩

theorem foldlM_congr_mem {f g : α → β → Except ε α} {xs : List β}
    (h : ∀ a, ∀ x ∈ xs, f a x = g a x) (a : α) : xs.foldlM f a = xs.foldlM g a := by
  induction xs generalizing a with
  | nil => rfl
  | cons x xs ih =>
    rw [List.foldlM_cons, List.foldlM_cons, h a x (by simp)]
    exact bind_congr (fun a' => ih (fun b y hy => h b y (by simp [hy])) a')

/-- A fold that succeeded keeps what each of its steps keeps. -/
theorem foldlM_ok {f : α → β → Except ε α} {I : α → Prop} {xs : List β}
    (step : ∀ a, ∀ x ∈ xs, ∀ a', I a → f a x = .ok a' → I a') {a a' : α} (ha : I a)
    (h : xs.foldlM f a = .ok a') : I a' := by
  induction xs generalizing a with
  | nil =>
    cases h
    exact ha
  | cons x xs ih =>
    rw [List.foldlM_cons] at h
    obtain ⟨b, hb, h⟩ := bind_ok h
    exact ih (fun a y hy => step a y (List.mem_cons_of_mem x hy))
      (step a x List.mem_cons_self b ha hb) h

/-- The same for what depends on the elements folded so far. -/
theorem foldlM_ok_done {f : α → β → Except ε α} {I : List β → α → Prop}
    (step : ∀ done a x a', I done a → f a x = .ok a' → I (done ++ [x]) a') {xs : List β} {a a' : α}
    (ha : I [] a) (h : xs.foldlM f a = .ok a') : I xs a' := by
  have hrun : ∀ xs done a, I done a → xs.foldlM f a = .ok a' → I (done ++ xs) a' := by
    intro xs
    induction xs with
    | nil =>
      intro done a ha h
      cases h
      rwa [List.append_nil]
    | cons x xs ih =>
      intro done a ha h
      rw [List.foldlM_cons] at h
      obtain ⟨b, hb, h⟩ := bind_ok h
      have := ih (done ++ [x]) b (step done a x b ha hb) h
      rwa [List.append_assoc] at this
  have := hrun xs [] a ha h
  rwa [List.nil_append] at this

/-- When every element maps, the map succeeds and holds exactly the images. -/
theorem mapM_ok {f : α → Except ε β} {xs : List α} (h : ∀ x ∈ xs, ∃ y, f x = .ok y) :
    ∃ ys, xs.mapM f = .ok ys ∧ ∀ y, y ∈ ys ↔ ∃ x ∈ xs, f x = .ok y := by
  induction xs with
  | nil => exact ⟨[], rfl, by simp⟩
  | cons x xs ih =>
    obtain ⟨y, hy⟩ := h x (by simp)
    obtain ⟨ys, hys, hmem⟩ := ih (fun z hz => h z (by simp [hz]))
    refine ⟨y :: ys, ?_, fun z => ?_⟩
    · rw [List.mapM_cons, hy, hys]
      rfl
    · rw [List.mem_cons, hmem]
      simp [hy, eq_comm]

/-- What a successful map returned. -/
theorem mem_of_mapM_ok {f : α → Except ε β} {xs : List α} {ys : List β} (h : xs.mapM f = .ok ys)
    (y : β) : y ∈ ys ↔ ∃ x ∈ xs, f x = .ok y := by
  induction xs generalizing ys with
  | nil =>
    cases h
    simp
  | cons x xs ih =>
    rw [List.mapM_cons] at h
    obtain ⟨b, hb, h⟩ := bind_ok h
    obtain ⟨bs, hbs, h⟩ := bind_ok h
    cases h
    rw [List.mem_cons, ih hbs]
    simp [hb, eq_comm]

theorem ok_of_mapM_ok {f : α → Except ε β} {xs : List α} {ys : List β} (h : xs.mapM f = .ok ys)
    {x : α} (hx : x ∈ xs) : ∃ y ∈ ys, f x = .ok y := by
  induction xs generalizing ys with
  | nil => cases hx
  | cons a xs ih =>
    rw [List.mapM_cons] at h
    obtain ⟨b, hb, h⟩ := bind_ok h
    obtain ⟨bs, hbs, h⟩ := bind_ok h
    cases h
    rcases List.mem_cons.mp hx with rfl | hx
    · exact ⟨b, by simp, hb⟩
    · obtain ⟨y, hy, hf⟩ := ih hbs hx
      exact ⟨y, by simp [hy], hf⟩

theorem forM_cons {f : α → Except ε PUnit} {x : α} {xs : List α} :
    (x :: xs).forM f = f x >>= fun _ => xs.forM f := rfl

/-- A run over units succeeds exactly when every step does. -/
theorem forM_ok_iff {f : α → Except ε PUnit} {xs : List α} :
    xs.forM f = .ok () ↔ ∀ x ∈ xs, f x = .ok () := by
  induction xs with
  | nil => simp [pure, Except.pure]
  | cons x xs ih =>
    rw [forM_cons, List.forall_mem_cons, ← ih]
    cases f x <;> simp [bind, Except.bind]

theorem forM_error {f : α → Except ε PUnit} {xs : List α} {e : ε} (h : xs.forM f = .error e) :
    ∃ x ∈ xs, f x = .error e := by
  induction xs with
  | nil => cases h
  | cons x xs ih =>
    rw [forM_cons] at h
    cases hx : f x with
    | error e' =>
      rw [hx] at h
      cases h
      exact ⟨x, by simp, hx⟩
    | ok u =>
      rw [hx] at h
      obtain ⟨y, hy, he⟩ := ih h
      exact ⟨y, by simp [hy], he⟩

theorem exists_common_bound {P : α → Nat → Prop} {xs : List α}
    (h : ∀ x ∈ xs, ∃ k, ∀ fuel, P x (fuel + k)) : ∃ k, ∀ x ∈ xs, ∀ fuel, P x (fuel + k) := by
  induction xs with
  | nil => exact ⟨0, by simp⟩
  | cons x xs ih =>
    obtain ⟨k₁, h₁⟩ := h x (by simp)
    obtain ⟨k₂, h₂⟩ := ih (fun y hy => h y (by simp [hy]))
    refine ⟨k₁ + k₂, fun y hy fuel => ?_⟩
    rcases List.mem_cons.mp hy with rfl | hy
    · rw [show fuel + (k₁ + k₂) = fuel + k₂ + k₁ by omega]
      exact h₁ _
    · rw [show fuel + (k₁ + k₂) = fuel + k₁ + k₂ by omega]
      exact h₂ y hy _

/-! ## Steps over a state that survives failure -/

section State

variable {σ : Type}

theorem state_bind_ok {m : EStateM ε σ α} {f : α → EStateM ε σ β} {s s' : σ} {b : β}
    (h : (m >>= f) s = .ok b s') : ∃ a s₁, m s = .ok a s₁ ∧ f a s₁ = .ok b s' := by
  change EStateM.bind m f s = _ at h
  unfold EStateM.bind at h
  cases hm : m s with
  | ok a s₁ =>
    rw [hm] at h
    exact ⟨a, s₁, rfl, h⟩
  | error e s₁ =>
    rw [hm] at h
    cases h

theorem state_bind_error {m : EStateM ε σ α} {f : α → EStateM ε σ β} {s s' : σ} {e : ε}
    (h : (m >>= f) s = .error e s') :
    m s = .error e s' ∨ ∃ a s₁, m s = .ok a s₁ ∧ f a s₁ = .error e s' := by
  change EStateM.bind m f s = _ at h
  unfold EStateM.bind at h
  cases hm : m s with
  | ok a s₁ =>
    rw [hm] at h
    exact .inr ⟨a, s₁, rfl, h⟩
  | error e' s₁ =>
    rw [hm] at h
    cases h
    exact .inl rfl

/-- Whatever `m` does, failing included, it stays in `I`. -/
def Preserves (I : σ → Prop) (m : EStateM ε σ α) : Prop :=
  ∀ s, I s → match m s with
    | .ok _ s' => I s'
    | .error _ s' => I s'

namespace Preserves

variable {I : σ → Prop}

theorem ok {m : EStateM ε σ α} (h : Preserves I m) {s s' : σ} {a : α} (hs : I s)
    (hm : m s = .ok a s') : I s' := by
  have := h s hs
  rwa [hm] at this

theorem error {m : EStateM ε σ α} (h : Preserves I m) {s s' : σ} {e : ε} (hs : I s)
    (hm : m s = .error e s') : I s' := by
  have := h s hs
  rwa [hm] at this

theorem pure (a : α) : Preserves I (pure a : EStateM ε σ α) := fun _ hs => hs

theorem throw (e : ε) : Preserves I (throw e : EStateM ε σ α) := fun _ hs => hs

theorem modify {g : σ → σ} (h : ∀ s, I s → I (g s)) : Preserves I (modify g : EStateM ε σ PUnit) :=
  fun s hs => h s hs

theorem bind {m : EStateM ε σ α} {f : α → EStateM ε σ β} (hm : Preserves I m)
    (hf : ∀ a, Preserves I (f a)) : Preserves I (m >>= f) := by
  intro s hs
  cases hrun : (m >>= f) s with
  | ok b s' =>
    obtain ⟨a, s₁, hm', hf'⟩ := state_bind_ok hrun
    exact (hf a).ok (hm.ok hs hm') hf'
  | error e s' =>
    rcases state_bind_error hrun with hm' | ⟨a, s₁, hm', hf'⟩
    · exact hm.error hs hm'
    · exact (hf a).error (hm.ok hs hm') hf'

theorem ite {c : Prop} [Decidable c] {m m' : EStateM ε σ α} (hm : Preserves I m)
    (hm' : Preserves I m') : Preserves I (if c then m else m') := by
  split_ifs
  · exact hm
  · exact hm'

theorem forM {xs : List α} {f : α → EStateM ε σ PUnit} (h : ∀ x ∈ xs, Preserves I (f x)) :
    Preserves I (xs.forM f) := by
  induction xs with
  | nil => exact pure _
  | cons x xs ih =>
    exact bind (h x List.mem_cons_self) (fun _ => ih (fun y hy => h y (List.mem_cons_of_mem x hy)))

end Preserves

end State

end SrcControl.Fallible
