import SrcControl.Repo.Diff3OneSided

/-!
# Merging a merged text again

A merged text whose diff from the base keeps the hunks of a side absorbs that side: merging the
two again changes nothing. Edits of neighbouring lines are one hunk of the merged text, and then
the merge with either side conflicts.
-/

namespace SrcControl.Diff3

/-- The diff from the base to `m` has every hunk of the diff to `x`. -/
def Keeps (base x m : String) : Prop :=
  ∀ h ∈ diffHunks (splitLines base).1 (splitLines x).1,
    h ∈ diffHunks (splitLines base).1 (splitLines m).1

variable {base ours theirs m : String}

theorem mergeLines_keeps_theirs (hm : m ≠ "\n") (h : Keeps base theirs m) :
    mergeLines base m theirs = ⟨m, false⟩ := by
  have habs : Absorbs (splitLines base).1 (splitLines m).1 (splitLines theirs).1 .ours .theirs :=
    ⟨by simp, h⟩
  obtain ⟨hlines, hclean⟩ := habs.clean
  rw [mergeLines_eq, hlines, hclean, linesOf, joinLines_splitLines hm, if_pos]
  by_cases hnil : m = ""
  · exact .inl hnil
  · exact .inr (finalNewline_ours hnil)

theorem mergeLines_keeps_ours (hm : m ≠ "\n") (h : Keeps base ours m)
    (hnl : ours = "" ∨ endsWithNewline ours = endsWithNewline m) :
    mergeLines base ours m = ⟨m, false⟩ := by
  have habs : Absorbs (splitLines base).1 (splitLines ours).1 (splitLines m).1 .theirs .ours :=
    ⟨by simp, h⟩
  obtain ⟨hlines, hclean⟩ := habs.clean
  rw [mergeLines_eq, hlines, hclean, linesOf, joinLines_splitLines hm, if_pos]
  by_cases hnil : m = ""
  · exact .inl hnil
  · refine .inr ?_
    by_cases hours : ours = ""
    · rw [hours, finalNewline_theirs hnil]
    · rw [finalNewline_ours hours]
      exact hnl.resolve_left hours

/-- A text is determined by its lines and whether it ends with a newline. -/
theorem eq_of_splitLines {s s' : String} (hlines : (splitLines s).1 = (splitLines s').1)
    (hnl : endsWithNewline s = endsWithNewline s') : s = s' := by
  by_cases hs : s = ""
  · rw [hs] at hlines ⊢
    exact (splitLines_nil.mp hlines.symm).symm
  · have hs' : s' ≠ "" := fun hnil => hs (splitLines_nil.mp (by rw [hlines, hnil]; rfl))
    rw [splitLines_body hs, splitLines_body hs'] at hlines
    have hbody : bodyOf s = bodyOf s' := by
      have hjoin := congrArg ("\n".intercalate ·) hlines
      simp only [intercalate_lines] at hjoin
      exact String.ofList_injective hjoin
    cases hend : endsWithNewline s with
    | true =>
      rw [← bodyOf_append hend, hbody]
      exact bodyOf_append (hnl ▸ hend)
    | false =>
      rw [bodyOf, bodyOf, ← hnl, hend] at hbody
      exact String.toList_injective hbody

/-- A base that keeps the hunks of two texts is one of them, or they are equal. -/
theorem keeps_base (ho : Keeps base ours base) (ht : Keeps base theirs base) :
    ours = base ∨ theirs = base ∨ ours = theirs := by
  have hsame : ∀ {x : String}, Keeps base x base → (splitLines x).1 = (splitLines base).1 := by
    intro x hx
    have hnil : diffHunks (splitLines base).1 (splitLines x).1 = [] := by
      refine List.eq_nil_iff_forall_not_mem.mpr (fun h hin => ?_)
      have hself := hx h hin
      rw [diffHunks_self] at hself
      exact List.not_mem_nil hself
    rw [← applyHunks_diffHunks (splitLines base).1 (splitLines x).1, hnil]
    rfl
  have hlines := hsame ho
  have hlines' := hsame ht
  by_cases hob : endsWithNewline ours = endsWithNewline base
  · exact .inl (eq_of_splitLines hlines hob)
  · by_cases htb : endsWithNewline theirs = endsWithNewline base
    · exact .inr (.inl (eq_of_splitLines hlines' htb))
    · refine .inr (.inr (eq_of_splitLines (hlines.trans hlines'.symm) ?_))
      revert hob htb
      cases endsWithNewline ours <;> cases endsWithNewline theirs <;>
        cases endsWithNewline base <;> simp

/-! ## Edits of neighbouring lines -/

/-- Groups that are in order already are the clusters. -/
theorem clusterHunks_of_sorted {all : List (Side × Hunk)} {cs : List (List Nat)}
    (hvalues : (groupsOf all).values = cs)
    (h : cs.Pairwise (fun c c' => earliest all c ≤ earliest all c')) : clusterHunks all = cs := by
  rw [clusterHunks_eq, hvalues]
  exact List.mergeSort_of_pairwise (h.imp (fun hle => decide_eq_true hle))

theorem sideText_window (b o t : List String) (side : Side) {c : List Nat}
    (h : c.Sublist (List.range (taggedHunks b o t).length)) :
    sideText b (taggedHunks b o t) side c =
      applyWindow b (windowHi (taggedHunks b o t) c) (windowLo (taggedHunks b o t) c)
        (sideHunks (taggedHunks b o t) side c) :=
  sideText_eq h (sideHunks_all_apart b o t side)

/-- A merge whose clusters agree is the base with their texts in it. -/
theorem mergeLines_texts {b o t : List String} {cs : List (List Nat)} (text : List Nat → List String)
    (hb : (splitLines base).1 = b) (ho : (splitLines ours).1 = o) (ht : (splitLines theirs).1 = t)
    (hcs : clusterHunks (taggedHunks b o t) = cs)
    (h : ∀ c ∈ cs, ¬Diverges b (taggedHunks b o t) c ∧ mergedText b (taggedHunks b o t) c = text c) :
    mergeLines base ours theirs =
      ⟨joinLines (weave b (taggedHunks b o t) text 0 cs) (finalNewline base ours theirs), false⟩ := by
  have hlines : mergedLines b o t = weave b (taggedHunks b o t) text 0 cs := by
    rw [mergedLines_weave (fun c hc => (h c (hcs ▸ hc)).1), hcs]
    exact weave_congr 0 (fun c hc => (h c hc).2)
  have hclean : (mergeState b o t).conflicted = false := by
    rw [Bool.eq_false_iff]
    intro hconf
    obtain ⟨c, hc, hdiv⟩ := (mergeState_conflicted b o t).mp hconf
    exact (h c (hcs ▸ hc)).1 hdiv
  rw [mergeLines_eq, hb, ho, ht, hlines, hclean]

/-- Ours changes the second line and theirs the third. -/
theorem neighbours_merge :
    mergeLines "a\nb\nc\n" "a\nB\nc\n" "a\nb\nC\n" = ⟨"a\nB\nC\n", false⟩ := by
  rw [@mergeLines_texts _ _ _ ["a", "b", "c"] ["a", "B", "c"] ["a", "b", "C"] [[0], [1]]
    (fun c => if c = [0] then ["B"] else ["C"]) (by decide) (by decide) (by decide)
    (clusterHunks_of_sorted (by decide) (by decide))]
  · decide
  · intro c hc
    have hsub : c.Sublist (List.range 2) := by
      fin_cases hc <;> decide
    rw [Diverges, mergedText, sideText_window _ _ _ .ours hsub, sideText_window _ _ _ .theirs hsub]
    fin_cases hc <;> decide

/-- Merging that result with theirs again conflicts: its diff has one hunk for both lines. -/
theorem neighbours_conflict_again :
    mergeLines "a\nb\nc\n" "a\nB\nc\n" "a\nb\nC\n" = ⟨"a\nB\nC\n", false⟩ ∧
      (mergeLines "a\nb\nc\n" "a\nB\nC\n" "a\nb\nC\n").conflicted = true := by
  refine ⟨neighbours_merge, ?_⟩
  have hb : (splitLines "a\nb\nc\n").1 = ["a", "b", "c"] := by decide
  have hm : (splitLines "a\nB\nC\n").1 = ["a", "B", "C"] := by decide
  have ht : (splitLines "a\nb\nC\n").1 = ["a", "b", "C"] := by decide
  have hclusters : clusterHunks (taggedHunks ["a", "b", "c"] ["a", "B", "C"] ["a", "b", "C"]) =
      [[0, 1]] := clusterHunks_of_sorted (by decide) (by decide)
  have hsub : [0, 1].Sublist (List.range 2) := by decide
  rw [mergeLines_eq, hb, hm, ht]
  refine (mergeState_conflicted _ _ _).mpr ⟨[0, 1], by rw [hclusters]; simp, ?_⟩
  rw [Diverges, sideText_window _ _ _ .ours hsub, sideText_window _ _ _ .theirs hsub]
  decide

end SrcControl.Diff3
