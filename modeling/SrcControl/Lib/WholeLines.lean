import SrcControl.Lib.LineText

/-!
# Lists of lines

A text read line by line. The lines that were written come back when none holds a newline, nor
ends in a carriage return, which the end of a line takes with it.
-/

namespace SrcControl.LineText

/-- `lines()`. -/
def lines (s : List Char) : List (List Char) := (rawLines s).map lineBody

/-- A line that is not read back: a newline in it, or a carriage return at its end. -/
def Breaks (l : List Char) : Prop := '\n' ∈ l ∨ l.getLast? = some '\r'

instance (l : List Char) : Decidable (Breaks l) := inferInstanceAs (Decidable (_ ∨ _))

theorem rawLines_ne_nil {s : List Char} (h : s ≠ []) : rawLines s ≠ [] := by
  intro hnil
  have hflat := rawLines_flatten s
  rw [hnil] at hflat
  exact h hflat.symm

/-- A newline ends the lines before it. -/
theorem rawLines_append (l rest : List Char) :
    rawLines (l ++ '\n' :: rest) = rawLines (l ++ ['\n']) ++ rawLines rest := by
  induction l with
  | nil => simp [rawLines]
  | cons c cs ih =>
    rw [List.cons_append, List.cons_append, rawLines, rawLines]
    split_ifs
    · rw [ih, List.cons_append]
    · rw [ih]
      cases hraw : rawLines (cs ++ ['\n']) with
      | nil => exact absurd hraw (rawLines_ne_nil (by simp))
      | cons l ls => rfl

theorem lines_append (l rest : List Char) :
    lines (l ++ '\n' :: rest) = lines (l ++ ['\n']) ++ lines rest := by
  rw [lines, rawLines_append, List.map_append]
  rfl

theorem lines_unlines_flatMap (ls : List (List Char)) :
    lines (unlines ls) = ls.flatMap (fun l => lines (l ++ ['\n'])) := by
  induction ls with
  | nil => rfl
  | cons l ls ih => rw [unlines_cons, lines_append, ih, List.flatMap_cons]

/-- The newline of a raw line is its last character. -/
theorem not_mem_dropLast_rawLines {s raw : List Char} (h : raw ∈ rawLines s) :
    '\n' ∉ raw.dropLast := by
  induction s generalizing raw with
  | nil => cases h
  | cons c cs ih =>
    rw [rawLines] at h
    split_ifs at h with hc
    · rcases List.mem_cons.mp h with rfl | h
      · simp
      · exact ih h
    · cases hraw : rawLines cs with
      | nil =>
        rw [hraw] at h
        rw [List.mem_singleton.mp h]
        simp
      | cons l ls =>
        rw [hraw] at h ih
        rcases List.mem_cons.mp h with rfl | h
        · cases l with
          | nil => simp
          | cons d ds =>
            rw [List.dropLast_cons_cons, List.mem_cons, not_or]
            exact ⟨fun he => hc he.symm, ih List.mem_cons_self⟩
        · exact ih (List.mem_cons_of_mem l h)

theorem not_mem_of_mem_lines {s l : List Char} (h : l ∈ lines s) : '\n' ∉ l := by
  obtain ⟨raw, hraw, rfl⟩ := List.mem_map.mp h
  have hinner := not_mem_dropLast_rawLines hraw
  unfold lineBody
  split_ifs with hlast
  · exact fun hmem => hinner ((prefix_stripLast '\r' raw.dropLast).sublist.mem hmem)
  · intro hmem
    cases hcase : raw.getLast? with
    | none =>
      rw [List.getLast?_eq_none_iff.mp hcase] at hmem
      cases hmem
    | some c =>
      obtain ⟨l, rfl⟩ := List.getLast?_eq_some_iff.mp hcase
      rw [List.dropLast_concat] at hinner
      rcases List.mem_append.mp hmem with hmem | hmem
      · exact hinner hmem
      · exact hlast (hcase.trans (congrArg some (List.mem_singleton.mp hmem).symm))

theorem lines_line {l : List Char} (h : '\n' ∉ l) : lines (l ++ ['\n']) = [stripLast '\r' l] := by
  rw [lines, rawLines_line [] h, List.map_cons, lineBody_ended]
  rfl

theorem lines_unlines {ls : List (List Char)} (h : ∀ l ∈ ls, '\n' ∉ l) :
    lines (unlines ls) = ls.map (stripLast '\r') := by
  rw [lines_unlines_flatMap]
  induction ls with
  | nil => rfl
  | cons l ls ih =>
    rw [List.flatMap_cons, lines_line (h l List.mem_cons_self),
      ih (fun l hl => h l (List.mem_cons_of_mem _ hl))]
    rfl

theorem stripLast_eq_self_iff {c : Char} {s : List Char} :
    stripLast c s = s ↔ s.getLast? ≠ some c := by
  unfold stripLast
  split_ifs with h
  · refine iff_of_false (fun heq => ?_) (not_not.mpr h)
    have hlen := congrArg List.length heq
    rw [List.length_dropLast] at hlen
    have hne : s ≠ [] := by
      rintro rfl
      cases h
    have hpos := List.length_pos_iff.mpr hne
    omega
  · exact iff_of_true rfl h

/-- The lines come back exactly when none of them breaks. -/
theorem lines_unlines_iff {ls : List (List Char)} :
    lines (unlines ls) = ls ↔ ∀ l ∈ ls, ¬ Breaks l := by
  constructor
  · intro h l hl
    have hnone : ∀ l ∈ ls, '\n' ∉ l := by
      intro l hl
      rw [← h] at hl
      exact not_mem_of_mem_lines hl
    rw [lines_unlines hnone] at h
    have hsame : stripLast '\r' l = l :=
      List.map_inj_left.mp (h.trans (List.map_id ls).symm) l hl
    rintro (hn | hr)
    · exact hnone l hl hn
    · exact stripLast_eq_self_iff.mp hsame hr
  · intro h
    rw [lines_unlines (fun l hl hn => h l hl (.inl hn))]
    refine (List.map_congr_left (fun l hl => ?_)).trans (List.map_id ls)
    exact stripLast_eq_self_iff.mpr (fun hr => h l hl (.inr hr))

/-! ## The unfinished line -/

/-- What stands behind the last newline. -/
def openLine (s : List Char) : List Char := s.rtakeWhile (· != '\n')

theorem exists_lines (s : List Char) :
    ∃ ls last, s = unlines ls ++ last ∧ (∀ l ∈ ls, '\n' ∉ l) ∧ '\n' ∉ last := by
  induction s with
  | nil => exact ⟨[], [], rfl, by simp, by simp⟩
  | cons c cs ih =>
    obtain ⟨ls, last, rfl, hls, hlast⟩ := ih
    by_cases hc : c = '\n'
    · refine ⟨[] :: ls, last, by simp [hc], fun l hl => ?_, hlast⟩
      rcases List.mem_cons.mp hl with rfl | hl
      · simp
      · exact hls l hl
    · have hc' : '\n' ≠ c := fun h => hc h.symm
      cases ls with
      | nil => exact ⟨[], c :: last, rfl, by simp, by simp [hc', hlast]⟩
      | cons l ls =>
        refine ⟨(c :: l) :: ls, last, by simp, fun l' hl' => ?_, hlast⟩
        rcases List.mem_cons.mp hl' with rfl | hl'
        · simp [hc', hls l List.mem_cons_self]
        · exact hls l' (List.mem_cons_of_mem l hl')

theorem openLine_unlines (ls : List (List Char)) {last : List Char} (h : '\n' ∉ last) :
    openLine (unlines ls ++ last) = last := by
  have hlast : ∀ c ∈ last, (c != '\n') = true := by
    intro c hc
    simp only [bne_iff_ne, ne_eq]
    rintro rfl
    exact h hc
  rcases List.eq_nil_or_concat ls with rfl | ⟨ls, l, rfl⟩
  · exact List.rtakeWhile_eq_self_iff.mpr hlast
  · have htext : unlines (ls.concat l) ++ last = (unlines ls ++ l ++ ['\n']) ++ last := by
      simp [unlines_append]
    rw [htext, openLine, List.rtakeWhile, List.reverse_append,
      List.takeWhile_append_of_pos (by simpa using hlast)]
    simp

theorem rawLines_open {ls : List (List Char)} {last : List Char} (hls : ∀ l ∈ ls, '\n' ∉ l)
    (hlast : '\n' ∉ last) :
    rawLines (unlines ls ++ last) =
      ls.map (· ++ ['\n']) ++ if last = [] then [] else [last] := by
  rw [rawLines_unlines_append last hls]
  split_ifs with h
  · rw [h]
    rfl
  · rw [rawLines_last h hlast]

end SrcControl.LineText
