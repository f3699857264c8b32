import Mathlib.Data.List.Chain
import Mathlib.Tactic.Common

/-!
# How often a property begins to hold

The values that something has had, the newest first, and the number of times that a property of
them began to hold. A property that never ends begins at most once.
-/

namespace SrcControl.Rises

variable {α : Type} {p : α → Prop}

open Classical in
/-- How often `p` begins to hold along a history. -/
noncomputable def rises (p : α → Prop) : List α → Nat
  | [] => 0
  | [_] => 0
  | new :: old :: past => (if p new ∧ ¬ p old then 1 else 0) + rises p (old :: past)

/-- What holds once holds ever after. -/
def Stays (p : α → Prop) (history : List α) : Prop :=
  history.IsChain (fun new old => p old → p new)

theorem Stays.of_suffix {past history : List α} (h : Stays p history) (hs : past <:+ history) :
    Stays p past := List.IsChain.suffix h hs

theorem rises_cons_cons {new old : α} {past : List α} (h : p new → p old) :
    rises p (new :: old :: past) = rises p (old :: past) := by
  rw [rises, if_neg (fun hn => hn.2 (h hn.1)), Nat.zero_add]

theorem rises_cons_cons_of_begin {new old : α} {past : List α} (hn : p new) (ho : ¬ p old) :
    rises p (new :: old :: past) = rises p (old :: past) + 1 := by
  rw [rises, if_pos ⟨hn, ho⟩, Nat.add_comm]

/-- What held once holds now. -/
theorem Stays.head {new : α} {past : List α} (h : Stays p (new :: past)) {x : α} (hx : x ∈ past)
    (hp : p x) : p new := by
  induction past generalizing new with
  | nil => cases hx
  | cons old past ih =>
    have hstep := (List.isChain_cons_cons.mp h).1
    have hrest : Stays p (old :: past) := (List.isChain_cons_cons.mp h).2
    rcases List.mem_cons.mp hx with rfl | hx
    · exact hstep hp
    · exact hstep (ih hrest hx)

theorem rises_eq_zero {history : List α} (h : ∀ x ∈ history, ¬ p x) : rises p history = 0 := by
  induction history with
  | nil => rfl
  | cons new past ih =>
    cases past with
    | nil => rfl
    | cons old past =>
      rw [rises_cons_cons (fun hn => absurd hn (h new List.mem_cons_self))]
      exact ih (fun x hx => h x (List.mem_cons_of_mem _ hx))

/-- A lasting property that holds of one value and not of another began to hold exactly once. -/
theorem Stays.rises_eq_one {history : List α} (h : Stays p history) {x y : α} (hx : x ∈ history)
    (hpx : ¬ p x) (hy : y ∈ history) (hpy : p y) : rises p history = 1 := by
  induction history generalizing y with
  | nil => cases hx
  | cons new past ih =>
    cases past with
    | nil =>
      rw [List.mem_singleton] at hx hy
      rw [hx, ← hy] at hpx
      exact absurd hpy hpx
    | cons old past =>
      have hrest : Stays p (old :: past) := h.of_suffix (List.suffix_cons _ _)
      have hnew : p new := by
        rcases List.mem_cons.mp hy with rfl | hy
        · exact hpy
        · exact h.head hy hpy
      have hpast : x ∈ old :: past := by
        rcases List.mem_cons.mp hx with rfl | hx
        · exact absurd hnew hpx
        · exact hx
      by_cases hold : p old
      · rw [rises_cons_cons (fun _ => hold)]
        exact ih hrest hpast List.mem_cons_self hold
      · have hnone : ∀ z ∈ old :: past, ¬ p z := by
          intro z hz hpz
          rcases List.mem_cons.mp hz with rfl | hz
          · exact hold hpz
          · exact hold (hrest.head hz hpz)
        rw [rises_cons_cons_of_begin hnew hold, rises_eq_zero hnone]

theorem le_rises_cons (new : α) (past : List α) : rises p past ≤ rises p (new :: past) := by
  cases past with
  | nil => exact Nat.zero_le _
  | cons old past =>
    rw [rises.eq_3]
    exact Nat.le_add_left _ _

theorem le_rises_append (recent past : List α) : rises p past ≤ rises p (recent ++ past) := by
  induction recent with
  | nil => exact Nat.le_refl _
  | cons new recent ih => exact ih.trans (le_rises_cons new _)

/-- A property that holds after it did not hold has begun to hold. -/
theorem one_le_rises {recent past : List α} {x y : α} (hy : p y) (hx : x ∈ past) (hpx : ¬ p x) :
    1 ≤ rises p (recent ++ y :: past) := by
  refine le_trans ?_ (le_rises_append recent (y :: past))
  induction past generalizing y with
  | nil => cases hx
  | cons old past ih =>
    by_cases hold : p old
    · rw [rises_cons_cons (fun _ => hold)]
      rcases List.mem_cons.mp hx with rfl | hx
      · exact absurd hold hpx
      · exact ih hold hx
    · rw [rises_cons_cons_of_begin hy hold]
      exact Nat.le_add_left 1 _

end SrcControl.Rises
