import SrcControl.Lib.CommonSubsequence
import SrcControl.Repo.Diff3
import Mathlib.Data.List.Basic

/-!
# The hunks of one side

The walk over the table keeps a longest common subsequence; the gaps between its pairs are the
hunks. The hunks of one side stay apart, rebuild the side from the base, and delete no more base
lines than any other such list of hunks does.
-/

namespace SrcControl.Diff3

open CommonSubsequence

theorem slice_self (xs : List String) (lo : Nat) : slice xs lo lo = [] := by
  rw [slice, Nat.sub_self, List.take_zero]

theorem length_slice {xs : List String} {lo hi : Nat} (h : hi ≤ xs.length) :
    (slice xs lo hi).length = hi - lo := by
  rw [slice, List.length_take, List.length_drop]
  omega

theorem slice_append_drop (xs : List String) {lo hi : Nat} (h : lo ≤ hi) :
    slice xs lo hi ++ xs.drop hi = xs.drop lo := by
  have hdrop : xs.drop hi = (xs.drop lo).drop (hi - lo) := by
    rw [List.drop_drop, Nat.add_sub_cancel' h]
  rw [slice, hdrop, List.take_append_drop]

theorem slice_append_slice (xs : List String) {lo mid hi : Nat} (h : lo ≤ mid) (h' : mid ≤ hi) :
    slice xs lo mid ++ slice xs mid hi = slice xs lo hi := by
  have hsplit : hi - lo = (mid - lo) + (hi - mid) := by omega
  rw [slice, slice, slice, hsplit, List.take_add, List.drop_drop, Nat.add_sub_cancel' h]

theorem slice_to_end (xs : List String) (lo : Nat) : slice xs lo xs.length = xs.drop lo := by
  rw [slice, List.take_of_length_le (by rw [List.length_drop])]

theorem slice_eq_cons {xs : List String} {lo hi : Nat} (h : lo < hi) (hx : hi ≤ xs.length) :
    slice xs lo hi = xs.getD lo "" :: slice xs (lo + 1) hi := by
  have hlt : lo < xs.length := by omega
  have hsucc : hi - lo = (hi - (lo + 1)) + 1 := by omega
  rw [slice, List.drop_eq_getElem_cons hlt, hsucc, List.take_succ_cons, slice,
    List.getD_eq_getElem?_getD, List.getElem?_eq_getElem hlt]
  rfl

theorem drop_eq_cons {xs : List String} {i : Nat} (h : i < xs.length) :
    xs.drop i = xs.getD i "" :: xs.drop (i + 1) := by
  rw [List.drop_eq_getElem_cons h, List.getD_eq_getElem?_getD, List.getElem?_eq_getElem h]
  rfl

/-! ## The table -/

theorem dpRow_lcs (x : String) (xs other : List String) :
    dpRow x other (other.tails.map (lcsLength xs)) = other.tails.map (lcsLength (x :: xs)) := by
  induction other with
  | nil => simp [dpRow]
  | cons y ys ih =>
    have hhead : (ys.tails.map (lcsLength xs)).headD 0 = lcsLength xs ys := by
      cases ys <;> rfl
    have hhead' : (ys.tails.map (lcsLength (x :: xs))).headD 0 = lcsLength (x :: xs) ys := by
      cases ys <;> rfl
    have htails : (y :: ys).tails = (y :: ys) :: ys.tails := List.tails_cons y ys
    rw [htails, List.map_cons, List.map_cons, dpRow, List.tail_cons, ih, hhead, hhead',
      List.headD_cons, lcsLength]

theorem dpTable_lcs (base other : List String) : dpTable base other = lcsTable base other := by
  induction base with
  | nil =>
    have hrow : other.tails.map (lcsLength []) = List.replicate (other.length + 1) 0 := by
      rw [List.eq_replicate_iff]
      refine ⟨by rw [List.length_map, List.length_tails], fun v hv => ?_⟩
      obtain ⟨s, -, rfl⟩ := List.mem_map.mp hv
      rw [lcsLength]
    rw [dpTable, lcsTable, show ([] : List String).tails = [[]] from rfl, List.map_singleton,
      hrow]
  | cons x xs ih =>
    have hhead : (lcsTable xs other).headD [] = other.tails.map (lcsLength xs) := by
      cases xs <;> rfl
    rw [dpTable, ih, hhead, dpRow_lcs, lcsTable, lcsTable, List.tails_cons, List.map_cons]

theorem dpAt_dpTable (base other : List String) {i j : Nat} (hi : i ≤ base.length)
    (hj : j ≤ other.length) :
    dpAt (dpTable base other) i j = lcsLength (base.drop i) (other.drop j) := by
  rw [dpAt, dpTable_lcs, lcsTable_getD base other hi hj]

/-! ## The walk -/

/-- Pairs of equal lines, ascending on both sides from `i` and `j` on. -/
inductive Aligned (b o : List String) : Nat → Nat → List (Nat × Nat) → Prop
  | nil {i j : Nat} (hi : i ≤ b.length) (hj : j ≤ o.length) : Aligned b o i j []
  | cons {i j i' j' : Nat} {ps : List (Nat × Nat)} (hi : i ≤ i') (hj : j ≤ j')
      (hb : i' < b.length) (ho : j' < o.length) (heq : b.getD i' "" = o.getD j' "")
      (h : Aligned b o (i' + 1) (j' + 1) ps) : Aligned b o i j ((i', j') :: ps)

variable {b o : List String} {i j : Nat} {ps : List (Nat × Nat)}

theorem Aligned.weaken {i' j' : Nat} (h : Aligned b o i' j' ps) (hi : i ≤ i') (hj : j ≤ j') :
    Aligned b o i j ps := by
  cases h with
  | nil hi' hj' => exact .nil (hi.trans hi') (hj.trans hj')
  | cons hi' hj' hb ho heq h => exact .cons (hi.trans hi') (hj.trans hj') hb ho heq h

def keep (res : List (Option Nat)) (ps : List (Nat × Nat)) : List (Option Nat) :=
  ps.foldl (fun res p => res.set p.1 (some p.2)) res

theorem lcsLength_exhausted (h : ¬(i < b.length ∧ j < o.length)) :
    lcsLength (b.drop i) (o.drop j) = 0 := by
  rcases Nat.lt_or_ge i b.length with hlt | hge
  · have hjo : o.length ≤ j := by omega
    rw [List.drop_eq_nil_of_le hjo, lcsLength_nil_right]
  · rw [List.drop_eq_nil_of_le hge, lcsLength]

/-- The walk keeps as many pairs as a longest common subsequence of the suffixes has lines. -/
theorem matchWalk_aligned (b o : List String) (fuel : Nat) (i j : Nat) (res : List (Option Nat))
    (hi : i ≤ b.length) (hj : j ≤ o.length) (hfuel : b.length + o.length ≤ i + j + fuel) :
    ∃ ps, Aligned b o i j ps ∧ ps.length = lcsLength (b.drop i) (o.drop j) ∧
      matchWalk b o (dpTable b o) fuel i j res = keep res ps := by
  induction fuel generalizing i j res with
  | zero =>
    exact ⟨[], .nil hi hj, (lcsLength_exhausted (by omega)).symm, rfl⟩
  | succ fuel ih =>
    rw [matchWalk]
    split_ifs with hlt heq hle
    · obtain ⟨hib, hjo⟩ := hlt
      obtain ⟨ps, hal, hlen, hwalk⟩ := ih (i + 1) (j + 1) (res.set i (some j)) (by omega)
        (by omega) (by omega)
      refine ⟨(i, j) :: ps, .cons (Nat.le_refl i) (Nat.le_refl j) hib hjo heq hal, ?_, hwalk⟩
      rw [drop_eq_cons hib, drop_eq_cons hjo, heq, lcsLength_cons_self, List.length_cons, hlen]
    · obtain ⟨hib, hjo⟩ := hlt
      obtain ⟨ps, hal, hlen, hwalk⟩ := ih (i + 1) j res (by omega) (by omega) (by omega)
      refine ⟨ps, hal.weaken (Nat.le_succ i) (Nat.le_refl j), ?_, hwalk⟩
      rw [dpAt_dpTable b o hi hjo, dpAt_dpTable b o hib hj] at hle
      rw [hlen, drop_eq_cons hib, drop_eq_cons hjo, lcsLength_cons_ne heq, ← drop_eq_cons hib,
        ← drop_eq_cons hjo, Nat.max_eq_left hle]
    · obtain ⟨hib, hjo⟩ := hlt
      obtain ⟨ps, hal, hlen, hwalk⟩ := ih i (j + 1) res (by omega) (by omega) (by omega)
      refine ⟨ps, hal.weaken (Nat.le_refl i) (Nat.le_succ j), ?_, hwalk⟩
      rw [dpAt_dpTable b o hi hjo, dpAt_dpTable b o hib hj] at hle
      rw [hlen, drop_eq_cons hib, drop_eq_cons hjo, lcsLength_cons_ne heq, ← drop_eq_cons hib,
        ← drop_eq_cons hjo, Nat.max_eq_right (Nat.le_of_not_le hle)]
    · exact ⟨[], .nil hi hj, (lcsLength_exhausted hlt).symm, rfl⟩

/-- The pairs read back from the map of a walk. -/
def kept (res : List (Option Nat)) (start : Nat) : List (Int × Int) :=
  (res.zipIdx start).filterMap (fun (om, bi) => om.map (fun oi => ((bi : Int), (oi : Int))))

def castPairs (ps : List (Nat × Nat)) : List (Int × Int) :=
  ps.map (fun p => ((p.1 : Int), (p.2 : Int)))

theorem kept_append (xs ys : List (Option Nat)) (start : Nat) :
    kept (xs ++ ys) start = kept xs start ++ kept ys (start + xs.length) := by
  rw [kept, List.zipIdx_append, List.filterMap_append, kept, kept]

theorem kept_replicate (k start : Nat) : kept (List.replicate k none) start = [] := by
  induction k generalizing start with
  | zero => rfl
  | succ k ih =>
    rw [List.replicate_succ, kept, List.zipIdx_cons, List.filterMap_cons]
    exact ih (start + 1)

theorem kept_keep (h : Aligned b o i j ps) (done : List (Option Nat)) (hdone : done.length = i) :
    kept (keep (done ++ List.replicate (b.length - i) none) ps) 0 =
      kept done 0 ++ castPairs ps := by
  induction h generalizing done with
  | nil hi hj =>
    rw [keep, List.foldl_nil, kept_append, kept_replicate]
    rfl
  | @cons i j i' j' ps hi hj hb ho heq h ih =>
    have hsplit : List.replicate (b.length - i) (none : Option Nat) =
        List.replicate (i' - i) none ++ (none :: List.replicate (b.length - (i' + 1)) none) := by
      rw [← List.replicate_succ, List.replicate_append_replicate]
      congr 1
      omega
    have hlen : (done ++ List.replicate (i' - i) (none : Option Nat)).length = i' := by
      rw [List.length_append, List.length_replicate, hdone]
      omega
    have hset : (done ++ List.replicate (b.length - i) (none : Option Nat)).set i' (some j') =
        (done ++ List.replicate (i' - i) none ++ [some j']) ++
          List.replicate (b.length - (i' + 1)) none := by
      rw [hsplit, ← List.append_assoc, List.set_append_right _ _ (by omega), hlen, Nat.sub_self,
        List.set_cons_zero, List.append_assoc _ [some j'], List.singleton_append]
    have hnew := ih (done ++ List.replicate (i' - i) none ++ [some j'])
      (by rw [List.length_append, hlen, List.length_singleton])
    rw [keep, List.foldl_cons, hset]
    rw [keep] at hnew
    rw [hnew, kept_append, kept_append, kept_replicate, hlen, List.append_nil, List.append_assoc]
    simp [kept, castPairs]

/-! ## The gaps -/

/-- The hunk between two kept pairs, or none where the lines between them agree. -/
def gapHunk (b o : List String) (i i' j j' : Nat) : List Hunk :=
  if slice b i i' = slice o j j' then [] else [⟨i, i', slice o j j'⟩]

def hunksFrom (b o : List String) : Nat → Nat → List (Nat × Nat) → List Hunk
  | i, j, [] => gapHunk b o i b.length j o.length
  | i, j, (i', j') :: ps => gapHunk b o i i' j j' ++ hunksFrom b o (i' + 1) (j' + 1) ps

def windowHunk (b o : List String) (w : (Int × Int) × (Int × Int)) : Option Hunk :=
  if slice b (w.1.1 + 1).toNat w.2.1.toNat = slice o (w.1.2 + 1).toNat w.2.2.toNat then none
  else some ⟨(w.1.1 + 1).toNat, w.2.1.toNat, slice o (w.1.2 + 1).toNat w.2.2.toNat⟩

theorem windowHunk_gap (p : Int × Int) (i' j' : Nat) :
    (windowHunk b o (p, ((i' : Int), (j' : Int)))).toList =
      gapHunk b o (p.1 + 1).toNat i' (p.2 + 1).toNat j' := by
  rw [windowHunk, gapHunk, Int.toNat_natCast, Int.toNat_natCast]
  split_ifs <;> rfl

theorem filterMap_windows (p : Int × Int) (ps : List (Nat × Nat)) :
    (((p :: castPairs ps) ++ [((b.length : Int), (o.length : Int))]).zip
        (castPairs ps ++ [((b.length : Int), (o.length : Int))])).filterMap (windowHunk b o) =
      hunksFrom b o (p.1 + 1).toNat (p.2 + 1).toNat ps := by
  have hcons : ∀ (w : (Int × Int) × (Int × Int)) (ws : List ((Int × Int) × (Int × Int))),
      (w :: ws).filterMap (windowHunk b o) =
        (windowHunk b o w).toList ++ ws.filterMap (windowHunk b o) := by
    intro w ws
    rw [List.filterMap_cons]
    cases windowHunk b o w <;> rfl
  induction ps generalizing p with
  | nil =>
    rw [hunksFrom, ← windowHunk_gap, ← List.append_nil (windowHunk b o _).toList]
    exact hcons _ []
  | cons q ps ih =>
    obtain ⟨i', j'⟩ := q
    have hnext := ih ((i' : Int), (j' : Int))
    have hi : ((i' : Int) + 1).toNat = i' + 1 := by omega
    have hj : ((j' : Int) + 1).toNat = j' + 1 := by omega
    rw [hi, hj] at hnext
    rw [hunksFrom, ← windowHunk_gap, ← hnext]
    exact hcons _ _

/-- The hunks are the gaps between the pairs of a longest common subsequence. -/
theorem diffHunks_gaps (b o : List String) : ∃ ps, Aligned b o 0 0 ps ∧
    ps.length = lcsLength b o ∧ diffHunks b o = hunksFrom b o 0 0 ps := by
  obtain ⟨ps, hal, hlen, hwalk⟩ := matchWalk_aligned b o (b.length + o.length) 0 0
    (List.replicate b.length none) (Nat.zero_le _) (Nat.zero_le _) (by omega)
  have hkept : kept (matchMap b o) 0 = castPairs ps := by
    rw [matchMap, hwalk]
    exact kept_keep hal [] rfl
  refine ⟨ps, hal, hlen, ?_⟩
  have hwindows := @filterMap_windows b o (-1, -1) ps
  rw [← hkept] at hwindows
  exact hwindows

/-! ## Hunks that stay apart -/

/-- Hunks in the base from line `i` on, with a line of the base between each and the next. -/
inductive Apart (b : List String) : Nat → List Hunk → Prop
  | nil {i : Nat} : Apart b i []
  | cons {i : Nat} {h : Hunk} {hs : List Hunk} (hi : i ≤ h.baseStart)
      (hle : h.baseStart ≤ h.baseEnd) (hb : h.baseEnd ≤ b.length)
      (hne : slice b h.baseStart h.baseEnd ≠ h.replacement) (hrest : Apart b (h.baseEnd + 1) hs) :
      Apart b i (h :: hs)

variable {k : Hunk} {hs gs : List Hunk}

theorem Apart.weaken {i' : Nat} (h : Apart b i' hs) (hi : i ≤ i') : Apart b i hs := by
  cases h with
  | nil => exact .nil
  | cons hi' hle hb hne h => exact .cons (hi.trans hi') hle hb hne h

theorem Apart.sublist (h : Apart b i hs) (hsub : gs.Sublist hs) : Apart b i gs := by
  induction h generalizing gs with
  | nil =>
    rw [List.sublist_nil.mp hsub]
    exact .nil
  | @cons i h hs hi hle hb hne _ ih =>
    cases hsub with
    | cons _ hsub => exact (ih hsub).weaken (by omega)
    | cons_cons _ hsub => exact .cons hi hle hb hne (ih hsub)

theorem gapHunk_apart {i' j' : Nat} (hi : i ≤ i') (hi' : i' ≤ b.length)
    (h : Apart b (i' + 1) hs) : Apart b i (gapHunk b o i i' j j' ++ hs) := by
  rw [gapHunk]
  split_ifs with heq
  · exact h.weaken (by omega)
  · exact .cons (Nat.le_refl i) hi hi' heq h

theorem hunksFrom_apart (h : Aligned b o i j ps) : Apart b i (hunksFrom b o i j ps) := by
  induction h with
  | nil hi hj =>
    rw [hunksFrom, ← List.append_nil (gapHunk _ _ _ _ _ _)]
    exact gapHunk_apart hi (Nat.le_refl _) .nil
  | cons hi hj hb ho heq h ih =>
    rw [hunksFrom]
    exact gapHunk_apart hi hb.le ih

theorem diffHunks_apart (b o : List String) : Apart b 0 (diffHunks b o) := by
  obtain ⟨ps, hal, -, heq⟩ := diffHunks_gaps b o
  rw [heq]
  exact hunksFrom_apart hal

/-! ## Applying hunks -/

/-- The lines of the base from `i` on with the hunks applied. -/
def applyHunks (b : List String) : Nat → List Hunk → List String
  | i, [] => b.drop i
  | i, h :: hs => slice b i h.baseStart ++ h.replacement ++ applyHunks b h.baseEnd hs

/-- Lines before the first hunk are passed on. -/
theorem applyHunks_skip {i' : Nat} (hi : i ≤ i') (h : Apart b i' hs) :
    applyHunks b i hs = slice b i i' ++ applyHunks b i' hs := by
  cases h with
  | nil => exact (slice_append_drop b hi).symm
  | cons hi' hle hb hne h =>
    rw [applyHunks, applyHunks, ← slice_append_slice b hi hi']
    simp only [List.append_assoc]

theorem applyHunks_gap {i' j' : Nat} (hi : i ≤ i') (h : Apart b i' hs) :
    applyHunks b i (gapHunk b o i i' j j' ++ hs) = slice o j j' ++ applyHunks b i' hs := by
  rw [gapHunk]
  split_ifs with heq
  · rw [List.nil_append, applyHunks_skip hi h, heq]
  · rw [List.singleton_append, applyHunks, slice_self, List.nil_append]

theorem applyHunks_hunksFrom (h : Aligned b o i j ps) :
    applyHunks b i (hunksFrom b o i j ps) = o.drop j := by
  induction h with
  | @nil i j hi hj =>
    rw [hunksFrom, ← List.append_nil (gapHunk _ _ _ _ _ _), applyHunks_gap hi .nil, applyHunks,
      List.drop_length, List.append_nil, slice_to_end]
  | @cons i j i' j' ps hi hj hb ho heq h ih =>
    have hrest := hunksFrom_apart h
    rw [hunksFrom, applyHunks_gap hi (hrest.weaken (Nat.le_succ i')),
      applyHunks_skip (Nat.le_succ i') hrest, ih, slice_eq_cons (Nat.lt_succ_self i') hb,
      slice_self, heq, List.singleton_append, ← drop_eq_cons ho, slice_append_drop o hj]

/-- The hunks of a side rebuild it from the base. -/
theorem applyHunks_diffHunks (b o : List String) : applyHunks b 0 (diffHunks b o) = o := by
  obtain ⟨ps, hal, -, heq⟩ := diffHunks_gaps b o
  rw [heq, applyHunks_hunksFrom hal, List.drop_zero]

/-! ## No list of hunks deletes fewer lines -/

/-- The lines of the base that the hunks replace. -/
def deleted (hs : List Hunk) : Nat := (hs.map (fun h => h.baseEnd - h.baseStart)).sum

/-- The lines of the base from `i` on that the hunks leave. -/
def untouched (b : List String) : Nat → List Hunk → List String
  | i, [] => b.drop i
  | i, h :: hs => slice b i h.baseStart ++ untouched b h.baseEnd hs

theorem untouched_sublist (h : Apart b i hs) :
    (untouched b i hs).Sublist (b.drop i) ∧ (untouched b i hs).Sublist (applyHunks b i hs) := by
  induction hs generalizing i with
  | nil => exact ⟨.refl _, .refl _⟩
  | cons h' hs ih =>
    cases h with
    | cons hi hle hb hne hrest =>
      obtain ⟨hdrop, happly⟩ := ih (hrest.weaken (Nat.le_succ h'.baseEnd))
      have hmid : (b.drop h'.baseEnd).Sublist (b.drop h'.baseStart) := by
        rw [← slice_append_drop b hle]
        exact List.sublist_append_right _ _
      rw [untouched, applyHunks]
      constructor
      · rw [← slice_append_drop b hi]
        exact (hdrop.trans hmid).append_left _
      · rw [List.append_assoc]
        exact (happly.trans (List.sublist_append_right _ _)).append_left _

theorem length_untouched (h : Apart b i hs) :
    (untouched b i hs).length + deleted hs = b.length - i := by
  induction hs generalizing i with
  | nil => simp [untouched, deleted]
  | cons h' hs ih =>
    cases h with
    | cons hi hle hb hne hrest =>
      have hlen := ih (hrest.weaken (Nat.le_succ h'.baseEnd))
      have hsum : deleted (h' :: hs) = h'.baseEnd - h'.baseStart + deleted hs := by
        rw [deleted, List.map_cons, List.sum_cons, deleted]
      rw [untouched, List.length_append, length_slice (hle.trans hb), hsum]
      omega

/-- The kept pairs and the replaced lines are different lines of the base. -/
theorem deleted_hunksFrom (h : Aligned b o i j ps) :
    ps.length + deleted (hunksFrom b o i j ps) ≤ b.length - i := by
  have hgap : ∀ (i i' j j' : Nat) (hs : List Hunk),
      deleted (gapHunk b o i i' j j' ++ hs) ≤ (i' - i) + deleted hs := by
    intro i i' j j' hs
    rw [gapHunk]
    split_ifs
    · rw [List.nil_append]
      omega
    · rw [List.singleton_append, deleted, List.map_cons, List.sum_cons, deleted]
  induction h with
  | @nil i j hi hj =>
    have hle := hgap i b.length j o.length []
    rw [List.append_nil] at hle
    exact (Nat.add_le_add_left hle _).trans (by simp [deleted])
  | @cons i j i' j' ps hi hj hb ho heq h ih =>
    have hle := hgap i i' j j' (hunksFrom b o (i' + 1) (j' + 1) ps)
    rw [hunksFrom, List.length_cons]
    omega

/-- The hunks of a side delete no more lines than any list of hunks that rebuilds the side. -/
theorem deleted_diffHunks_le (h : Apart b 0 gs) (happly : applyHunks b 0 gs = o) :
    deleted (diffHunks b o) ≤ deleted gs := by
  obtain ⟨ps, hal, hlen, heq⟩ := diffHunks_gaps b o
  obtain ⟨hbase, hother⟩ := untouched_sublist h
  rw [happly] at hother
  have hmax := length_le_lcsLength hbase hother
  have hkept := deleted_hunksFrom hal
  have huntouched := length_untouched h
  rw [List.drop_zero] at hmax
  rw [heq]
  omega

/-- The lines the hunks write. -/
def inserted (hs : List Hunk) : Nat := (hs.map (fun h => h.replacement.length)).sum

theorem length_applyHunks (h : Apart b i hs) :
    (applyHunks b i hs).length + deleted hs = b.length - i + inserted hs := by
  induction hs generalizing i with
  | nil => simp [applyHunks, deleted, inserted]
  | cons h' hs ih =>
    cases h with
    | cons hi hle hb hne hrest =>
      have hlen := ih (hrest.weaken (Nat.le_succ h'.baseEnd))
      have hdel : deleted (h' :: hs) = h'.baseEnd - h'.baseStart + deleted hs := by
        rw [deleted, List.map_cons, List.sum_cons, deleted]
      have hins : inserted (h' :: hs) = h'.replacement.length + inserted hs := by
        rw [inserted, List.map_cons, List.sum_cons, inserted]
      rw [applyHunks, List.length_append, List.length_append, length_slice (hle.trans hb), hdel,
        hins]
      omega

theorem Apart.weight_pos (h : Apart b i hs) (hin : k ∈ hs) :
    0 < k.baseEnd - k.baseStart + k.replacement.length := by
  induction h with
  | nil => cases hin
  | @cons i h hs hi hle hb hne _ ih =>
    rcases List.mem_cons.mp hin with rfl | hin
    · by_contra hzero
      have hend : k.baseEnd = k.baseStart := by omega
      have hnil : k.replacement = [] := List.length_eq_zero_iff.mp (by omega)
      exact hne (by rw [hend, slice_self, hnil])
    · exact ih hin

/-- A sublist of no smaller weight is the whole list. -/
theorem eq_of_sublist_weight {α : Type} {f : α → Nat} {xs ys : List α} (hsub : xs.Sublist ys)
    (hpos : ∀ y ∈ ys, 0 < f y) (hle : (ys.map f).sum ≤ (xs.map f).sum) : xs = ys := by
  have hge : ∀ {xs ys : List α}, xs.Sublist ys → (xs.map f).sum ≤ (ys.map f).sum :=
    fun hsub => (hsub.map f).sum_le_sum (fun _ _ => Nat.zero_le _)
  induction hsub with
  | slnil => rfl
  | @cons xs ys y hsub _ =>
    have hy := hpos y List.mem_cons_self
    have hxs := hge hsub
    rw [List.map_cons, List.sum_cons] at hle
    omega
  | @cons_cons xs ys y hsub ih =>
    rw [List.map_cons, List.sum_cons, List.map_cons, List.sum_cons] at hle
    rw [ih (fun z hz => hpos z (List.mem_cons_of_mem y hz)) (by omega)]

/-- No proper part of the hunks of a side rebuilds it. -/
theorem diffHunks_minimal (hsub : gs.Sublist (diffHunks b o))
    (happly : applyHunks b 0 gs = o) : gs = diffHunks b o := by
  have hapart := diffHunks_apart b o
  have hdel := deleted_diffHunks_le (hapart.sublist hsub) happly
  have hlen := length_applyHunks (hapart.sublist hsub)
  have hlen' := length_applyHunks hapart
  rw [happly] at hlen
  rw [applyHunks_diffHunks] at hlen'
  have hsum : ∀ hs : List Hunk, (hs.map (fun h => h.baseEnd - h.baseStart +
      h.replacement.length)).sum = deleted hs + inserted hs :=
    fun hs => List.sum_map_add
  refine eq_of_sublist_weight hsub (fun k hk => hapart.weight_pos hk) ?_
  rw [hsum, hsum]
  omega

end SrcControl.Diff3
