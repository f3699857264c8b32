import Mathlib.Data.List.Basic

/-!
# Binary search

The halving search of a sorted slice by a three-way comparison of each element
with the target. The window `[base, base + size)` always holds every index whose
element compares equal.
-/

namespace SrcControl.BinarySearch

variable {α : Type}

/-- The comparison walks `lt … lt, eq?, gt … gt` along the list. -/
def Ascending (f : α → Ordering) (xs : List α) : Prop :=
  xs.Pairwise (fun a b => f a ≠ .lt → f b = .gt)

/-- Shrink the window to one index; `fuel` bounds the number of halvings. -/
def narrow (f : α → Ordering) (xs : List α) : Nat → Nat → Nat → Nat
  | 0, base, _ => base
  | fuel + 1, base, size =>
    if 1 < size then
      let half := size / 2
      let mid := base + half
      let base' := match xs[mid]? with
        | some x => if f x = .gt then base else mid
        | none => base
      narrow f xs fuel base' (size - half)
    else base

/-- `binary_search_by(f).ok()` followed by the indexing. -/
def search (f : α → Ordering) (xs : List α) : Option α :=
  match xs[narrow f xs xs.length 0 xs.length]? with
  | some x => if f x = .eq then some x else none
  | none => none

theorem search_sound {f : α → Ordering} {xs : List α} {x : α} (h : search f xs = some x) :
    x ∈ xs ∧ f x = .eq := by
  unfold search at h
  split at h
  · next y hy =>
    split_ifs at h with he
    obtain rfl := Option.some.inj h
    exact ⟨List.mem_of_getElem? hy, he⟩
  · cases h

theorem Ascending.lt_of_gt {f : α → Ordering} {xs : List α} (ha : Ascending f xs)
    {i j : Nat} {x y : α} (hi : xs[i]? = some x) (hj : xs[j]? = some y)
    (hx : f x = .eq) (hy : f y = .gt) : i < j := by
  obtain ⟨hi', rfl⟩ := List.getElem?_eq_some_iff.mp hi
  obtain ⟨hj', rfl⟩ := List.getElem?_eq_some_iff.mp hj
  rcases Nat.lt_trichotomy i j with h | h | h
  · exact h
  · subst h
    rw [hx] at hy
    cases hy
  · have hgt := List.pairwise_iff_getElem.mp ha j i hj' hi' h (by rw [hy]; simp)
    rw [hx] at hgt
    cases hgt

theorem Ascending.le_of_ne_gt {f : α → Ordering} {xs : List α} (ha : Ascending f xs)
    {i j : Nat} {x y : α} (hi : xs[i]? = some x) (hj : xs[j]? = some y)
    (hx : f x = .eq) (hy : f y ≠ .gt) : j ≤ i := by
  obtain ⟨hi', rfl⟩ := List.getElem?_eq_some_iff.mp hi
  obtain ⟨hj', rfl⟩ := List.getElem?_eq_some_iff.mp hj
  by_contra hlt
  exact hy (List.pairwise_iff_getElem.mp ha i j hi' hj' (by omega) (by rw [hx]; simp))

theorem narrow_eq {f : α → Ordering} {xs : List α} (ha : Ascending f xs) {i : Nat} {x : α}
    (hi : xs[i]? = some x) (hx : f x = .eq) :
    ∀ fuel base size, size ≤ fuel → base ≤ i → i < base + size → base + size ≤ xs.length →
      narrow f xs fuel base size = i := by
  intro fuel
  induction fuel with
  | zero => intro base size hs hb hlt hl; omega
  | succ fuel ih =>
    intro base size hs hb hlt hl
    simp only [narrow]
    split_ifs with h1
    · have hmid : base + size / 2 < xs.length := by omega
      rw [List.getElem?_eq_getElem hmid]
      have hm := List.getElem?_eq_getElem hmid
      simp only
      split_ifs with hgt
      · have := ha.lt_of_gt hi hm hx hgt
        exact ih _ _ (by omega) hb (by omega) (by omega)
      · have := ha.le_of_ne_gt hi hm hx hgt
        exact ih _ _ (by omega) this (by omega) (by omega)
    · omega

theorem search_complete {f : α → Ordering} {xs : List α} (ha : Ascending f xs) {x : α}
    (hm : x ∈ xs) (hx : f x = .eq) : search f xs = some x := by
  obtain ⟨i, hi⟩ := List.mem_iff_getElem?.mp hm
  have hlen : i < xs.length := (List.getElem?_eq_some_iff.mp hi).1
  rw [search, narrow_eq ha hi hx _ 0 _ (Nat.le_refl _) (Nat.zero_le i) (by omega) (by omega), hi]
  simp [hx]

/-- On an ascending list the search finds exactly the element that compares equal. -/
theorem search_eq_some_iff {f : α → Ordering} {xs : List α} (ha : Ascending f xs) {x : α} :
    search f xs = some x ↔ x ∈ xs ∧ f x = .eq :=
  ⟨search_sound, fun h => search_complete ha h.1 h.2⟩

end SrcControl.BinarySearch
