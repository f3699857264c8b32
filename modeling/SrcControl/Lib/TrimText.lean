import SrcControl.Lib.LineText

/-!
# Trimming a text

What stands at both ends of a text does not change what is left of it after trimming.
-/

namespace SrcControl.TrimText

open LineText

variable {α : Type} {p : α → Bool}

theorem dropWhile_eq_nil_of_all {s : List α} (h : ∀ c ∈ s, p c = true) : s.dropWhile p = [] := by
  simpa using h

theorem dropWhile_append_all {a : List α} (ha : ∀ c ∈ a, p c = true) (s : List α) :
    (a ++ s).dropWhile p = s.dropWhile p := List.dropWhile_append_of_pos ha

theorem rdropWhile_append_all (s : List α) {b : List α} (hb : ∀ c ∈ b, p c = true) :
    (s ++ b).rdropWhile p = s.rdropWhile p := by
  rw [List.rdropWhile, List.reverse_append, dropWhile_append_all (by simpa using hb)]
  rfl

/-- A text in front of one that is not trimmed away stays whole. -/
theorem rdropWhile_append_ne (s : List α) {t : List α} (h : t.rdropWhile p ≠ []) :
    (s ++ t).rdropWhile p = s ++ t.rdropWhile p := by
  have hne : (t.reverse.dropWhile p).isEmpty = false := by
    rw [List.isEmpty_eq_false_iff]
    intro hnil
    exact h (by rw [List.rdropWhile, hnil]; rfl)
  rw [List.rdropWhile, List.reverse_append, List.dropWhile_append, hne]
  simp [List.rdropWhile]

theorem trim_pad {ws : Char → Bool} {a b : List Char} (ha : ∀ c ∈ a, ws c = true) (s : List Char)
    (hb : ∀ c ∈ b, ws c = true) : trim ws (a ++ s ++ b) = trim ws s := by
  unfold trim
  rw [List.append_assoc, dropWhile_append_all ha]
  by_cases hs : ∀ c ∈ s, ws c = true
  · have hsb : ∀ c ∈ s ++ b, ws c = true := by
      intro c hc
      rcases List.mem_append.mp hc with hc | hc
      · exact hs c hc
      · exact hb c hc
    rw [dropWhile_eq_nil_of_all hsb, dropWhile_eq_nil_of_all hs]
  · have hne : (s.dropWhile ws).isEmpty = false := by
      rw [List.isEmpty_eq_false_iff, ne_eq, List.dropWhile_eq_nil_iff]
      exact hs
    rw [List.dropWhile_append, hne]
    exact rdropWhile_append_all _ hb

theorem trim_rdropWhile (ws : Char → Bool) (s : List Char) :
    trim ws (s.rdropWhile ws) = trim ws s := by
  have h := @trim_pad ws [] (s.rtakeWhile ws) (by simp) (s.rdropWhile ws)
    fun c hc => List.mem_rtakeWhile_imp hc
  rw [List.nil_append, List.rdropWhile_append_rtakeWhile] at h
  exact h.symm

theorem trim_prefix_of_head {ws : Char → Bool} {c : Char} {s : List Char} (hc : ws c = false) :
    trim ws (c :: s) = (c :: s).rdropWhile ws := by
  simp [trim, hc]

/-- A text that trimming leaves alone ends in no character that is trimmed. -/
theorem rdropWhile_of_trim {ws : Char → Bool} {s : List Char} (h : trim ws s = s) :
    s.rdropWhile ws = s := by
  have hdrop : s.dropWhile ws = s := by
    apply List.IsSuffix.eq_of_length_le (List.dropWhile_suffix ws)
    conv_lhs => rw [← h]
    exact (List.rdropWhile_prefix ws _).length_le
  conv_rhs => rw [← h, trim, hdrop]

end SrcControl.TrimText
