import SrcControl.Repo.Diff3Rebuild

/-!
# One-sided and identical changes

A side whose hunks are all among those of the other meets each of them in a cluster of its own,
so the merge has no divergent cluster and the lines of the other side come out: a side equal to
the base has no hunks, and two equal sides have the same. The text is joined from the lines again
and closed by the newline that the first non-empty side ends with.
-/

namespace SrcControl.Diff3

open Relation

variable {b o t : List String} {all : List (Side × Hunk)} {side : Side} {c : List Nat}
  {cs : List (List Nat)}

theorem diffHunks_self (b : List String) : diffHunks b b = [] :=
  (diffHunks_minimal (List.nil_sublist _) rfl).symm

theorem Apart.eq_of_mem {i j : Nat} {hs gs : List Hunk} (hh : Apart b i hs) (hg : Apart b j gs)
    (hmem : ∀ h, h ∈ hs ↔ h ∈ gs) : hs = gs := by
  have hnodup : ∀ {i : Nat} {hs : List Hunk}, Apart b i hs → hs.Nodup := by
    intro i hs hap
    refine List.Pairwise.imp_of_mem (fun {h k} hin _ hbefore heq => ?_) hap.before
    subst heq
    have hle := (hap.valid h hin).2.1
    exact hbefore.asymm hle hle hbefore
  refine @List.Perm.eq_of_pairwise _ Before _ _ (fun h k hin hin' hhk hkh => ?_) hh.before hg.before
    ((List.perm_ext_iff_of_nodup (hnodup hh) (hnodup hg)).mpr hmem)
  exact absurd hkh (hhk.asymm (hh.valid h hin).2.1 (hg.valid k hin').2.1)

theorem weave_congr {text text' : List Nat → List String} (bi : Nat)
    (h : ∀ c ∈ cs, text c = text' c) : weave b all text bi cs = weave b all text' bi cs := by
  induction cs generalizing bi with
  | nil => rfl
  | cons c cs ih =>
    rw [weave, weave, h c List.mem_cons_self, ih _ (fun c' hc' => h c' (List.mem_cons_of_mem c hc'))]

theorem clean_of_texts (text : Side) (hcl : ∀ c ∈ clusterHunks (taggedHunks b o t),
    ¬Diverges b (taggedHunks b o t) c ∧
      mergedText b (taggedHunks b o t) c = sideText b (taggedHunks b o t) text c) :
    mergedLines b o t = linesOf o t text ∧ (mergeState b o t).conflicted = false := by
  refine ⟨?_, ?_⟩
  · rw [mergedLines_weave (fun c hc => (hcl c hc).1), weave_congr 0 (fun c hc => (hcl c hc).2),
      weave_side]
  · rw [Bool.eq_false_iff]
    intro hconf
    obtain ⟨c, hc, hdiv⟩ := (mergeState_conflicted b o t).mp hconf
    exact (hcl c hc).1 hdiv

/-! ## A side that the other absorbs -/

theorem mem_diffHunks_iff {side : Side} {h : Hunk} : h ∈ diffHunks b (linesOf o t side) ↔
    ∃ i : Nat, (taggedHunks b o t)[i]? = some (side, h) := by
  rw [← sideHunks_all, mem_sideHunks]
  constructor
  · exact fun ⟨i, _, hget⟩ => ⟨i, hget⟩
  · rintro ⟨i, hget⟩
    obtain ⟨hlt, -⟩ := List.getElem?_eq_some_iff.mp hget
    exact ⟨i, List.mem_range.mpr hlt, hget⟩

theorem Apart.eq_of_interacts {i : Nat} {hs : List Hunk} {h k : Hunk} (hap : Apart b i hs)
    (hh : h ∈ hs) (hk : k ∈ hs) (hint : interacts h k = true) : h = k := by
  by_contra hne
  obtain ⟨hhk, hkh⟩ := (interacts_iff_not_before (hap.valid h hh).2.1 (hap.valid k hk).2.1).mp hint
  have hpair : hs.Pairwise (fun h k => Before h k ∨ Before k h) := hap.before.imp .inl
  have : Std.Symm (fun h k => Before h k ∨ Before k h) := ⟨fun _ _ hb => hb.symm⟩
  rcases hpair.forall hh hk hne with hb | hb
  · exact hhk hb
  · exact hkh hb

/-- Every hunk of `small` is one of `big`. -/
def Absorbs (b o t : List String) (big small : Side) : Prop :=
  big ≠ small ∧ ∀ h ∈ diffHunks b (linesOf o t small), h ∈ diffHunks b (linesOf o t big)

variable {big small : Side}

theorem Absorbs.mem (h : Absorbs b o t big small) {i : Nat} {a : Side × Hunk}
    (ha : (taggedHunks b o t)[i]? = some a) : a.2 ∈ diffHunks b (linesOf o t big) := by
  have hmem : a.2 ∈ diffHunks b (linesOf o t a.1) := mem_diffHunks_iff.mpr ⟨i, ha⟩
  have hside : a.1 = big ∨ a.1 = small := by
    have hne := h.1
    revert hne
    cases a.1 <;> cases big <;> cases small <;> simp
  rcases hside with heq | heq
  · exact heq ▸ hmem
  · exact h.2 _ (heq ▸ hmem)

/-- Only the copies of one hunk are linked. -/
theorem Absorbs.same_of_linked (h : Absorbs b o t big small) {i j : Nat}
    (hl : EqvGen (Linked (taggedHunks b o t)) i j) :
    (taggedHunks b o t)[i]?.map (·.2) = (taggedHunks b o t)[j]?.map (·.2) := by
  induction hl with
  | rel i j hl =>
    obtain ⟨a, a', ha, ha', -, hint⟩ := hl
    rw [ha, ha', Option.map_some, Option.map_some,
      (diffHunks_apart b _).eq_of_interacts (h.mem ha) (h.mem ha') hint]
  | refl i => rfl
  | symm i j _ ih => exact ih.symm
  | trans i j k _ _ ih ih' => exact ih.trans ih'

theorem interacts_self {h : Hunk} (hle : h.baseStart ≤ h.baseEnd) : interacts h h = true := by
  rw [interacts_iff_not_before hle hle]
  exact ⟨fun hb => hb.asymm hle hle hb, fun hb => hb.asymm hle hle hb⟩

/-- A cluster with a hunk of `small` holds its two copies and nothing else. -/
theorem Absorbs.sideHunks_eq (h : Absorbs b o t big small)
    (hcl : Clustered (taggedHunks b o t) cs) (hc : c ∈ cs)
    (hne : sideHunks (taggedHunks b o t) small c ≠ []) :
    sideHunks (taggedHunks b o t) big c = sideHunks (taggedHunks b o t) small c := by
  have hap : ∀ side, Apart b 0 (sideHunks (taggedHunks b o t) side c) :=
    fun side => (sideHunks_all_apart b o t side).sublist (sideHunks_sublist (hcl.sublist c hc))
  obtain ⟨k, hk⟩ := List.exists_mem_of_ne_nil _ hne
  obtain ⟨i, hi, hget⟩ := mem_sideHunks.mp hk
  obtain ⟨j, hgetj⟩ := mem_diffHunks_iff.mp (h.2 k (mem_diffHunks_iff.mpr ⟨i, hget⟩))
  have hlink : Linked (taggedHunks b o t) i j :=
    ⟨_, _, hget, hgetj, h.1.symm, interacts_self ((hap small).valid k hk).2.1⟩
  have hbig : k ∈ sideHunks (taggedHunks b o t) big c :=
    mem_sideHunks.mpr ⟨j, hcl.closed c hc hlink hi, hgetj⟩
  have hall : ∀ side, ∀ l ∈ sideHunks (taggedHunks b o t) side c, l = k := by
    intro side l hl
    obtain ⟨m, hm, hgetm⟩ := mem_sideHunks.mp hl
    have hsame := h.same_of_linked (hcl.connected c hc m hm i hi)
    rw [hgetm, hget] at hsame
    exact Option.some.inj hsame
  refine (hap big).eq_of_mem (hap small) (fun l => ⟨fun hl => ?_, fun hl => ?_⟩)
  · exact hall big l hl ▸ hk
  · exact hall small l hl ▸ hbig

/-- Merging with a side whose hunks are all among those of the other gives the other. -/
theorem Absorbs.clean (h : Absorbs b o t big small) :
    mergedLines b o t = linesOf o t big ∧ (mergeState b o t).conflicted = false := by
  refine clean_of_texts big (fun c hc => ?_)
  have hcl := clusterHunks_taggedHunks b o t
  have htext : ∀ side, sideText b (taggedHunks b o t) side c =
      applyWindow b (windowHi (taggedHunks b o t) c) (windowLo (taggedHunks b o t) c)
        (sideHunks (taggedHunks b o t) side c) :=
    fun side => sideText_eq (hcl.sublist c hc) (sideHunks_all_apart b o t side)
  have hcase : sideText b (taggedHunks b o t) small c =
        slice b (windowLo (taggedHunks b o t) c) (windowHi (taggedHunks b o t) c) ∨
      sideText b (taggedHunks b o t) big c = sideText b (taggedHunks b o t) small c := by
    by_cases hne : sideHunks (taggedHunks b o t) small c = []
    · exact .inl (by rw [htext, hne, applyWindow])
    · exact .inr (by rw [htext, htext, h.sideHunks_eq hcl hc hne])
  have hne := h.1
  rw [Diverges, mergedText]
  cases big <;> cases small
  · exact absurd rfl hne
  · rcases hcase with hcase | hcase
    · refine ⟨fun hdiv => hdiv.2.1 hcase, ?_⟩
      split_ifs with hours
      · rw [hours, hcase]
      · rfl
    · refine ⟨fun hdiv => hdiv.2.2 hcase, ?_⟩
      rw [← hcase, ite_self]
  · rcases hcase with hcase | hcase
    · exact ⟨fun hdiv => hdiv.1 hcase, if_pos hcase⟩
    · refine ⟨fun hdiv => hdiv.2.2 hcase.symm, ?_⟩
      rw [hcase, ite_self]
  · exact absurd rfl hne

/-! ## Nothing against a change, and a change against itself -/

theorem mergedLines_ours (b o : List String) :
    mergedLines b o b = o ∧ (mergeState b o b).conflicted = false := by
  have habs : Absorbs b o b .ours .theirs := by
    refine ⟨by simp, fun h hin => ?_⟩
    rw [linesOf, diffHunks_self] at hin
    cases hin
  exact habs.clean

theorem mergedLines_theirs (b t : List String) :
    mergedLines b b t = t ∧ (mergeState b b t).conflicted = false := by
  have habs : Absorbs b b t .theirs .ours := by
    refine ⟨by simp, fun h hin => ?_⟩
    rw [linesOf, diffHunks_self] at hin
    cases hin
  exact habs.clean

theorem mergedLines_same (b x : List String) :
    mergedLines b x x = x ∧ (mergeState b x x).conflicted = false := by
  have habs : Absorbs b x x .ours .theirs := ⟨by simp, fun _ hin => hin⟩
  exact habs.clean

/-! ## Texts -/

def endsWithNewline (s : String) : Bool := s.toList.getLast? == some '\n'

/-- The text `t` with the final newline or its absence taken from `b`; an empty text on either
side leaves it alone. -/
def withNewlineOf (b t : String) : String :=
  if b = "" ∨ t = "" ∨ endsWithNewline b = endsWithNewline t then t
  else if endsWithNewline b then t ++ "\n"
  else String.ofList t.toList.dropLast

theorem intercalate_lines (body : List Char) :
    "\n".intercalate ((body.splitOn '\n').map String.ofList) = String.ofList body := by
  have hchars : ((body.splitOn '\n').map String.ofList).map String.toList = body.splitOn '\n' := by
    rw [List.map_map]
    exact (List.map_congr_left (fun l _ => String.toList_ofList)).trans (List.map_id _)
  apply String.toList_injective
  rw [String.toList_intercalate, hchars, String.toList_ofList, String.toList_ofList]
  exact List.intercalate_splitOn '\n'

theorem splitLines_nil {s : String} : (splitLines s).1 = [] ↔ s = "" := by
  rw [splitLines]
  split_ifs with h
  · simp [h]
  · simp [h, List.splitOn_ne_nil]

theorem splitLines_newline (s : String) : (splitLines s).2 = endsWithNewline s := by
  rw [splitLines]
  split_ifs with hs
  · subst hs
    rfl
  · rfl

/-- The text without a final newline. -/
def bodyOf (s : String) : List Char :=
  if endsWithNewline s then s.toList.dropLast else s.toList

theorem splitLines_body {s : String} (hs : s ≠ "") :
    (splitLines s).1 = ((bodyOf s).splitOn '\n').map String.ofList := by
  rw [splitLines, if_neg hs]
  rfl

theorem bodyOf_append {s : String} (h : endsWithNewline s = true) :
    String.ofList (bodyOf s ++ ['\n']) = s := by
  have hlast : s.toList.getLast? = some '\n' := by simpa [endsWithNewline] using h
  rw [bodyOf, if_pos h, List.dropLast_append_getLast? '\n' hlast, String.ofList_toList]

theorem bodyOf_ne_nil {s : String} (hs : s ≠ "") (hs' : s ≠ "\n") : bodyOf s ≠ [] := by
  intro hnil
  by_cases h : endsWithNewline s = true
  · have htext := bodyOf_append h
    rw [hnil] at htext
    exact hs' htext.symm
  · rw [bodyOf, if_neg h] at hnil
    exact hs (String.toList_injective hnil)

theorem joinLines_body {body : List Char} (hbody : body ≠ []) (nl : Bool) :
    joinLines ((body.splitOn '\n').map String.ofList) nl =
      String.ofList (if nl = true then body ++ ['\n'] else body) := by
  have hne : String.ofList body ≠ "" := by
    intro hempty
    exact hbody (by rw [← String.toList_ofList (l := body), hempty]; rfl)
  rw [joinLines, intercalate_lines]
  cases nl with
  | false => simp
  | true =>
    simp only [ne_eq, hne, not_false_eq_true, and_self, if_true, String.ofList_append]

/-- Splitting and joining a text gives it back up to the final newline. -/
theorem joinLines_splitLines {s : String} (hs : s ≠ "\n") (nl : Bool) :
    joinLines (splitLines s).1 nl =
      if s = "" ∨ nl = endsWithNewline s then s
      else if nl then s ++ "\n" else String.ofList s.toList.dropLast := by
  by_cases hnil : s = ""
  · subst hnil
    cases nl <;> rfl
  · rw [splitLines_body hnil, joinLines_body (bodyOf_ne_nil hnil hs)]
    cases hend : endsWithNewline s with
    | true =>
      cases nl with
      | true =>
        rw [if_pos rfl, if_pos (.inr rfl)]
        exact bodyOf_append hend
      | false =>
        rw [if_neg Bool.false_ne_true, if_neg (not_or.mpr ⟨hnil, Bool.false_ne_true⟩),
          if_neg Bool.false_ne_true, bodyOf, if_pos hend]
    | false =>
      have hbody : bodyOf s = s.toList := by
        rw [bodyOf, hend]
        rfl
      cases nl with
      | true =>
        rw [if_pos rfl, if_neg (not_or.mpr ⟨hnil, Bool.false_ne_true.symm⟩), if_pos rfl, hbody,
          String.ofList_append, String.ofList_toList]
      | false =>
        rw [if_neg Bool.false_ne_true, if_pos (.inr rfl), hbody, String.ofList_toList]

theorem finalNewline_ours {b x y : String} (hx : x ≠ "") :
    finalNewline b x y = endsWithNewline x := by
  rw [finalNewline, if_pos (fun hnil => hx (splitLines_nil.mp hnil)), splitLines_newline]

theorem finalNewline_theirs {b y : String} (hy : y ≠ "") :
    finalNewline b "" y = endsWithNewline y := by
  rw [finalNewline, if_neg (fun h => h rfl), if_pos (fun hnil => hy (splitLines_nil.mp hnil)),
    splitLines_newline]

/-- A change of one side, or the same on both, is the merge. Only the final newline follows
ours where it is not empty, and theirs otherwise. -/
theorem mergeLines_oneSided (b x : String) (hx : x ≠ "\n") :
    mergeLines b x b = ⟨x, false⟩ ∧ mergeLines b x x = ⟨x, false⟩ ∧
      mergeLines b b x = ⟨withNewlineOf b x, false⟩ := by
  have hours : ∀ y, x = "" ∨ finalNewline b x y = endsWithNewline x := by
    intro y
    by_cases hnil : x = ""
    · exact .inl hnil
    · exact .inr (finalNewline_ours hnil)
  refine ⟨?_, ?_, ?_⟩
  · obtain ⟨hlines, hclean⟩ := mergedLines_ours (splitLines b).1 (splitLines x).1
    rw [mergeLines_eq, hlines, hclean, joinLines_splitLines hx, if_pos (hours b)]
  · obtain ⟨hlines, hclean⟩ := mergedLines_same (splitLines b).1 (splitLines x).1
    rw [mergeLines_eq, hlines, hclean, joinLines_splitLines hx, if_pos (hours x)]
  · obtain ⟨hlines, hclean⟩ := mergedLines_theirs (splitLines b).1 (splitLines x).1
    rw [mergeLines_eq, hlines, hclean, joinLines_splitLines hx, withNewlineOf]
    by_cases hxnil : x = ""
    · rw [if_pos (.inl hxnil), if_pos (.inr (.inl hxnil))]
    · by_cases hbnil : b = ""
      · rw [hbnil, if_pos (.inr (finalNewline_theirs hxnil)), if_pos (.inl rfl)]
      · rw [finalNewline_ours hbnil]
        simp only [hxnil, hbnil, false_or]

theorem mergeLines_oneSided_append :
    mergeLines "a\nb\n" "a\nb\nc\n" "a\nb\n" = ⟨"a\nb\nc\n", false⟩ :=
  (mergeLines_oneSided "a\nb\n" "a\nb\nc\n" (by decide)).1

/-- A final newline that only theirs adds is lost, and so is a side that is one newline. -/
theorem final_newline_lost : mergeLines "a" "a" "a\n" = ⟨"a", false⟩ ∧
    mergeLines "" "\n" "" = ⟨"", false⟩ ∧ ¬∀ b t : String, mergeLines b b t = ⟨t, false⟩ := by
  have hlost : mergeLines "a" "a" "a\n" = ⟨"a", false⟩ := by
    obtain ⟨hlines, hclean⟩ := mergedLines_theirs (splitLines "a").1 (splitLines "a\n").1
    rw [mergeLines_eq, hlines, hclean]
    decide
  refine ⟨hlost, ?_, fun hall => ?_⟩
  · obtain ⟨hlines, hclean⟩ := mergedLines_ours (splitLines "").1 (splitLines "\n").1
    rw [mergeLines_eq, hlines, hclean]
    decide
  · have hkept := hall "a" "a\n"
    rw [hlost] at hkept
    revert hkept
    decide

end SrcControl.Diff3
