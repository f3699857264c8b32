import SrcControl.Lib.LineText

/-!
# The texts of decimal numbers

What the parsers of decimal numbers accept: digits, and a plus sign before them.
-/

namespace SrcControl.LineText

theorem parseDigits_eq_some {s : List Char} {n : Nat} (h : parseDigits s = some n) :
    s ≠ [] ∧ (∀ c ∈ s, c.isDigit = true) ∧ n < 10 ^ s.length := by
  unfold parseDigits at h
  split_ifs at h with hs
  obtain rfl := Option.some.inj h
  have hall := List.all_eq_true.mp hs.2
  refine ⟨hs.1, hall, ?_⟩
  clear h hs
  induction s with
  | nil => simp
  | cons c cs ih =>
    have hrest := ih fun x hx => hall x (List.mem_cons_of_mem c hx)
    have hc := Char.isDigit_iff_toNat.mp (hall c List.mem_cons_self)
    change 48 ≤ c.toNat ∧ c.toNat ≤ 57 at hc
    have hdigit : c.toNat - '0'.toNat ≤ 9 := by
      change c.toNat - 48 ≤ 9
      omega
    rw [Nat.ofDigitChars_cons, Nat.ofDigitChars_eq_ofDigitChars_zero, List.length_cons,
      Nat.pow_succ, Nat.mul_zero, Nat.zero_add]
    have := Nat.mul_le_mul_left (10 ^ cs.length) hdigit
    omega

theorem stripPlus_cases (s : List Char) : s = stripPlus s ∨ s = '+' :: stripPlus s := by
  unfold stripPlus
  split
  · exact .inr rfl
  · exact .inl rfl

theorem stripPlus_of_not_mem {s : List Char} (h : '+' ∉ s) : stripPlus s = s := by
  rcases stripPlus_cases s with hs | hs
  · exact hs.symm
  · rw [hs] at h
    exact absurd List.mem_cons_self h

theorem parseUnsigned_eq_some_iff {bound n : Nat} {s : List Char} :
    parseUnsigned bound s = some n ↔ parseDigits (stripPlus s) = some n ∧ n < bound := by
  simp [parseUnsigned, Option.filter_eq_some_iff]

/-- Digits, and perhaps a plus sign. -/
theorem plusDigits_chars {s : List Char} {n : Nat} (h : parseDigits (stripPlus s) = some n)
    {c : Char} (hc : c ∈ s) : c.isDigit = true ∨ c = '+' := by
  have hall := (parseDigits_eq_some h).2.1
  rcases stripPlus_cases s with hs | hs
  · rw [hs] at hc
    exact .inl (hall c hc)
  · rw [hs] at hc
    rcases List.mem_cons.mp hc with rfl | hc
    · exact .inr rfl
    · exact .inl (hall c hc)

theorem splitOnce_eq_some {sep : Char} {s a b : List Char} (h : splitOnce sep s = some (a, b)) :
    s = a ++ sep :: b ∧ sep ∉ a := by
  unfold splitOnce at h
  split at h
  · cases h
  · next c rest hdrop =>
    cases h
    have hne : s.dropWhile (· != sep) ≠ [] := by simp [hdrop]
    have hc := List.head_dropWhile_not (· != sep) hne
    simp only [hdrop, List.head_cons, bne_eq_false_iff_eq] at hc
    refine ⟨?_, fun hm => ?_⟩
    · conv_lhs => rw [← List.takeWhile_append_dropWhile (p := (· != sep)) (l := s), hdrop, hc]
    · simpa using List.mem_takeWhile_imp hm

theorem splitOnce_eq_none {sep : Char} {s : List Char} (h : sep ∉ s) : splitOnce sep s = none := by
  have hdrop : s.dropWhile (· != sep) = [] := by
    rw [List.dropWhile_eq_nil_iff]
    intro c hc
    simp only [bne_iff_ne, ne_eq]
    rintro rfl
    exact h hc
  simp [splitOnce, hdrop]

/-- The last separator cuts a text in one way. -/
theorem append_sep_inj {sep : Char} {a b p q : List Char} (h : a ++ sep :: p = b ++ sep :: q)
    (hp : sep ∉ p) (hq : sep ∉ q) : a = b ∧ p = q := by
  rcases List.append_eq_append_iff.mp h with ⟨c, rfl, hc⟩ | ⟨c, rfl, hc⟩
  · cases c with
    | nil =>
      cases hc
      simp
    | cons d c =>
      cases hc
      exact absurd (by simp) hp
  · cases c with
    | nil =>
      cases hc
      simp
    | cons d c =>
      cases hc
      exact absurd (by simp) hq

end SrcControl.LineText
