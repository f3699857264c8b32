import Mathlib

/-!
# Patterns with a wildcard

A pattern is a word in which one symbol stands for any word. Cut at that symbol, it asks for its
first piece at the front, its last piece at the end and the pieces between them in order; looking
for each of those where it occurs first never misses a match.
-/

namespace SrcControl.Glob

variable {α : Type} {star : α}

/-- The words a pattern stands for. -/
inductive Matches (star : α) : List α → List α → Prop
  | nil : Matches star [] []
  | literal {c : α} {p s : List α} (hc : c ≠ star) (h : Matches star p s) :
    Matches star (c :: p) (c :: s)
  | wild {p s : List α} (a : List α) (h : Matches star p s) : Matches star (star :: p) (a ++ s)

theorem matches_wild_iff {p s : List α} :
    Matches star (star :: p) s ↔ ∃ a t, s = a ++ t ∧ Matches star p t := by
  constructor
  · intro h
    cases h with
    | literal hc _ => exact absurd rfl hc
    | wild a h => exact ⟨a, _, rfl, h⟩
  · rintro ⟨a, t, rfl, h⟩
    exact .wild a h

theorem matches_literal_append {l p s : List α} (hl : star ∉ l) :
    Matches star (l ++ p) s ↔ ∃ t, s = l ++ t ∧ Matches star p t := by
  induction l generalizing s with
  | nil => simp
  | cons c l ih =>
    obtain ⟨hc, hl⟩ := not_or.mp (List.mem_cons.not.mp hl)
    constructor
    · intro h
      cases h with
      | literal _ h =>
        obtain ⟨t, rfl, ht⟩ := (ih hl).mp h
        exact ⟨t, rfl, ht⟩
      | wild a h => exact absurd rfl hc
    · rintro ⟨t, rfl, ht⟩
      exact .literal (Ne.symm hc) ((ih hl).mpr ⟨t, rfl, ht⟩)

theorem matches_nil_iff {s : List α} : Matches star [] s ↔ s = [] := by
  constructor
  · intro h
    cases h
    rfl
  · rintro rfl
    exact .nil

/-- A pattern without the wildcard stands for itself. -/
theorem matches_literal_iff {l s : List α} (hl : star ∉ l) : Matches star l s ↔ s = l := by
  have h := matches_literal_append (p := []) (s := s) hl
  simpa [matches_nil_iff] using h

/-! ## Pieces -/

/-- The pieces occur in the word one after another. -/
def InOrder : List (List α) → List α → Prop
  | [], _ => True
  | m :: ms, s => ∃ a b, s = a ++ (m ++ b) ∧ InOrder ms b

theorem InOrder.prepend {ms : List (List α)} {s : List α} (a : List α) (h : InOrder ms s) :
    InOrder ms (a ++ s) := by
  cases ms with
  | nil => trivial
  | cons m ms =>
    obtain ⟨b, c, rfl, h⟩ := h
    exact ⟨a ++ b, c, (List.append_assoc _ _ _).symm, h⟩

theorem matches_tail_iff {mids : List (List α)} {last s : List α} (hmids : ∀ m ∈ mids, star ∉ m)
    (hlast : star ∉ last) :
    Matches star (mids.flatMap (star :: ·) ++ star :: last) s ↔
      ∃ mid, s = mid ++ last ∧ InOrder mids mid := by
  induction mids generalizing s with
  | nil =>
    rw [List.flatMap_nil, List.nil_append, matches_wild_iff]
    constructor
    · rintro ⟨a, t, rfl, h⟩
      exact ⟨a, by rw [(matches_literal_iff hlast).mp h], trivial⟩
    · rintro ⟨mid, rfl, -⟩
      exact ⟨mid, last, rfl, (matches_literal_iff hlast).mpr rfl⟩
  | cons m ms ih =>
    have hm : star ∉ m := hmids m List.mem_cons_self
    have ih' := fun s => ih (s := s) (fun k hk => hmids k (List.mem_cons_of_mem m hk))
    have hcut : (m :: ms).flatMap (star :: ·) ++ star :: last =
        star :: (m ++ (ms.flatMap (star :: ·) ++ star :: last)) := by
      rw [List.flatMap_cons, List.append_assoc]
      rfl
    rw [hcut, matches_wild_iff]
    constructor
    · rintro ⟨a, t, rfl, h⟩
      obtain ⟨u, rfl, hu⟩ := (matches_literal_append hm).mp h
      obtain ⟨mid, rfl, hmid⟩ := (ih' u).mp hu
      exact ⟨a ++ (m ++ mid), by simp only [List.append_assoc], a, mid, rfl, hmid⟩
    · rintro ⟨mid, rfl, a, b, rfl, h⟩
      refine ⟨a, m ++ (b ++ last), by simp only [List.append_assoc], ?_⟩
      exact (matches_literal_append hm).mpr ⟨b ++ last, rfl, (ih' _).mpr ⟨b, rfl, h⟩⟩

/-- A pattern with a wildcard: its first piece, the pieces between wildcards, its last piece. -/
theorem matches_pieces_iff {first last s : List α} {mids : List (List α)} (hfirst : star ∉ first)
    (hmids : ∀ m ∈ mids, star ∉ m) (hlast : star ∉ last) :
    Matches star (first ++ (mids.flatMap (star :: ·) ++ star :: last)) s ↔
      ∃ mid, s = first ++ (mid ++ last) ∧ InOrder mids mid := by
  rw [matches_literal_append hfirst]
  constructor
  · rintro ⟨t, rfl, h⟩
    obtain ⟨mid, rfl, hmid⟩ := (matches_tail_iff hmids hlast).mp h
    exact ⟨mid, rfl, hmid⟩
  · rintro ⟨mid, rfl, h⟩
    exact ⟨mid ++ last, rfl, (matches_tail_iff hmids hlast).mpr ⟨mid, rfl, h⟩⟩

/-- Cutting a word at a symbol and putting the pieces back. -/
theorem splitOn_pieces [BEq α] [LawfulBEq α] (star : α) (p : List α) :
    ∃ first rest, p.splitOn star = first :: rest ∧ p = first ++ rest.flatMap (star :: ·) := by
  induction p with
  | nil => exact ⟨[], [], rfl, rfl⟩
  | cons c p ih =>
    obtain ⟨first, rest, hs, hp⟩ := ih
    rw [List.splitOn_cons_eq_if_modifyHead, hs]
    split_ifs with hc
    · refine ⟨[], first :: rest, rfl, ?_⟩
      rw [List.flatMap_cons, List.nil_append, List.cons_append, ← hp, beq_iff_eq.mp hc]
    · exact ⟨c :: first, rest, rfl, by rw [List.cons_append, ← hp]⟩

/-! ## First occurrences -/

/-- The word is `a`, the piece and `b`, and the piece starts nowhere before the end of `a`. -/
def FirstAt (m s a b : List α) : Prop :=
  s = a ++ (m ++ b) ∧ ∀ a' b', s = a' ++ (m ++ b') → a.length ≤ a'.length

/-- Taking the first occurrence of the next piece loses no way of placing the others. -/
theorem FirstAt.inOrder_iff {m s a b : List α} (h : FirstAt m s a b) (ms : List (List α)) :
    InOrder (m :: ms) s ↔ InOrder ms b := by
  constructor
  · rintro ⟨a', b', hs, hrest⟩
    have hle := h.2 a' b' hs
    have heq : (a ++ m) ++ b = (a' ++ m) ++ b' := by
      simpa only [List.append_assoc] using h.1.symm.trans hs
    rcases List.append_eq_append_iff.mp heq with ⟨c, -, hb⟩ | ⟨c, hc, hb⟩
    · rw [hb]
      exact hrest.prepend c
    · have hlen := congrArg List.length hc
      simp only [List.length_append] at hlen
      have hnil : c = [] := List.length_eq_zero_iff.mp (by omega)
      rw [hnil, List.nil_append] at hb
      exact hb ▸ hrest
  · intro hrest
    exact ⟨a, b, h.1, hrest⟩

end SrcControl.Glob
