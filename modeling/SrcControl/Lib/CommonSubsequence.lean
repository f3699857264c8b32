import Mathlib.Data.List.Infix
import Mathlib.Tactic.Common

/-!
# Longest common subsequences

The length of a longest common sublist of two lists by the usual recursion on their heads, and
the table of its values at every pair of suffixes.
-/

namespace SrcControl.CommonSubsequence

variable {α : Type} [DecidableEq α]

def lcsLength : List α → List α → Nat
  | [], _ => 0
  | _ :: _, [] => 0
  | x :: xs, y :: ys =>
    if x = y then lcsLength xs ys + 1
    else max (lcsLength xs (y :: ys)) (lcsLength (x :: xs) ys)

@[simp] theorem lcsLength_nil_right (xs : List α) : lcsLength xs [] = 0 := by
  cases xs <;> rw [lcsLength]

theorem lcsLength_cons_self (x : α) (xs ys : List α) :
    lcsLength (x :: xs) (x :: ys) = lcsLength xs ys + 1 := by
  rw [lcsLength, if_pos rfl]

theorem lcsLength_cons_ne {x y : α} (h : x ≠ y) (xs ys : List α) :
    lcsLength (x :: xs) (y :: ys) =
      max (lcsLength xs (y :: ys)) (lcsLength (x :: xs) ys) := by
  rw [lcsLength, if_neg h]

/-- No common sublist is longer. -/
theorem length_le_lcsLength {l xs ys : List α} (hx : l.Sublist xs) (hy : l.Sublist ys) :
    l.length ≤ lcsLength xs ys := by
  induction xs, ys using lcsLength.induct generalizing l with
  | case1 ys => simp [List.sublist_nil.mp hx]
  | case2 x xs => simp [List.sublist_nil.mp hy]
  | case3 x xs ys ih =>
    have htail := ih hx.tail hy.tail
    rw [lcsLength_cons_self]
    simp only [List.length_tail] at htail
    omega
  | case4 x xs y ys hne ih₁ ih₂ =>
    rw [lcsLength_cons_ne hne]
    cases hx with
    | cons _ hx => exact (ih₁ hx hy).trans (Nat.le_max_left _ _)
    | cons_cons _ hx =>
      cases hy with
      | cons _ hy => exact (ih₂ (hx.cons_cons x) hy).trans (Nat.le_max_right _ _)
      | cons_cons _ hy => exact absurd rfl hne

/-- The values for every suffix of the first list against every suffix of the second. -/
def lcsTable (xs ys : List α) : List (List Nat) :=
  xs.tails.map (fun s => ys.tails.map (lcsLength s))

theorem lcsTable_getD (xs ys : List α) {i j : Nat} (hi : i ≤ xs.length) (hj : j ≤ ys.length) :
    ((lcsTable xs ys).getD i []).getD j 0 = lcsLength (xs.drop i) (ys.drop j) := by
  have hrow : (lcsTable xs ys).getD i [] = ys.tails.map (lcsLength (xs.drop i)) := by
    have hlt : i < xs.tails.length := by rw [List.length_tails]; omega
    rw [lcsTable, List.getD_eq_getElem?_getD, List.getElem?_map, List.getElem?_eq_getElem hlt,
      List.getElem_tails]
    rfl
  have hlt : j < ys.tails.length := by rw [List.length_tails]; omega
  rw [hrow, List.getD_eq_getElem?_getD, List.getElem?_map, List.getElem?_eq_getElem hlt,
    List.getElem_tails]
  rfl

end SrcControl.CommonSubsequence
