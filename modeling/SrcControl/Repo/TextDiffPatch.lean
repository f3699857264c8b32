import SrcControl.Repo.Diff3Hunks
import SrcControl.Repo.TextDiff

/-!
# The displayed diff is a patch

The script takes the old lines to the new ones. Each turn of the hunk loop leaves both positions
the same unchanged stretch behind the last hunk, and the hunk it makes covers one stretch of
either text: its counters, its context and its marked lines follow from that.
-/

namespace SrcControl.TextDiff

open Diff3 (slice slice_self length_slice slice_append_drop slice_append_slice slice_eq_cons
  drop_eq_cons dpTable dpAt)

variable {o n : List String} {script : List Op} {i j g k : Nat}

/-! ## Scripts -/

/-- The script takes the first list to the second. -/
inductive Edits : List String → List String → List Op → Prop
  | nil : Edits [] [] []
  | keep {x : String} {o n : List String} {s : List Op} (h : Edits o n s) :
      Edits (x :: o) (x :: n) (.keep :: s)
  | del {x : String} {o n : List String} {s : List Op} (h : Edits o n s) :
      Edits (x :: o) n (.del :: s)
  | add {x : String} {o n : List String} {s : List Op} (h : Edits o n s) :
      Edits o (x :: n) (.add :: s)

theorem edits_adds (n : List String) : Edits [] n (List.replicate n.length .add) := by
  induction n with
  | nil => exact .nil
  | cons x n ih => exact .add ih

theorem edits_replace (o n : List String) :
    Edits o n (List.replicate o.length .del ++ List.replicate n.length .add) := by
  induction o with
  | nil => exact edits_adds n
  | cons x o ih => exact .del ih

theorem scriptWalk_edits (dp : List (List Nat)) {fuel : Nat}
    (h : o.length - i + (n.length - j) < fuel) :
    Edits (o.drop i) (n.drop j) (scriptWalk o n dp fuel i j) := by
  induction fuel generalizing i j with
  | zero => omega
  | succ fuel ih =>
    rw [scriptWalk]
    split_ifs with hlt heq hdp
    · rw [drop_eq_cons hlt.1, drop_eq_cons hlt.2, heq]
      exact .keep (ih (by omega))
    · rw [drop_eq_cons hlt.1]
      exact .del (ih (by omega))
    · rw [drop_eq_cons hlt.2]
      exact .add (ih (by omega))
    · have hrest := edits_replace (o.drop i) (n.drop j)
      rwa [List.length_drop, List.length_drop] at hrest

theorem editScript_edits (o n : List String) : Edits o n (editScript o n) := by
  rw [editScript]
  split_ifs with hbudget
  · exact edits_replace o n
  · exact @scriptWalk_edits o n 0 0 (dpTable o n) _ (by omega)

theorem Edits.eq_nil (h : Edits o n []) : o = [] ∧ n = [] := by
  cases h
  exact ⟨rfl, rfl⟩

theorem Edits.del_inv (h : Edits (o.drop i) n (.del :: script)) :
    i < o.length ∧ Edits (o.drop (i + 1)) n script := by
  generalize hd : o.drop i = d at h
  cases h with
  | del h =>
    have hlt : i < o.length := by
      by_contra hge
      rw [List.drop_eq_nil_of_le (by omega)] at hd
      cases hd
    rw [drop_eq_cons hlt] at hd
    obtain ⟨-, rfl⟩ := List.cons.inj hd
    exact ⟨hlt, h⟩

theorem Edits.add_inv (h : Edits o (n.drop j) (.add :: script)) :
    j < n.length ∧ Edits o (n.drop (j + 1)) script := by
  generalize hd : n.drop j = d at h
  cases h with
  | add h =>
    have hlt : j < n.length := by
      by_contra hge
      rw [List.drop_eq_nil_of_le (by omega)] at hd
      cases hd
    rw [drop_eq_cons hlt] at hd
    obtain ⟨-, rfl⟩ := List.cons.inj hd
    exact ⟨hlt, h⟩

/-! ## Unchanged runs -/

theorem keepRun_keep (s : List Op) : keepRun (.keep :: s) = keepRun s + 1 := by
  simp [keepRun]

theorem keepRun_change {op : Op} (h : op ≠ .keep) (s : List Op) : keepRun (op :: s) = 0 := by
  simp [keepRun, h]

theorem keepRun_drop (s : List Op) : keepRun (s.drop (keepRun s)) = 0 := by
  induction s with
  | nil => rfl
  | cons op s ih =>
    by_cases hop : op = .keep
    · rw [hop, keepRun_keep, List.drop_succ_cons, ih]
    · rw [keepRun_change hop, List.drop_zero, keepRun_change hop]

theorem keepRun_le (s : List Op) : keepRun s ≤ s.length :=
  (List.takeWhile_sublist _).length_le

/-- Both texts go on with the run. -/
theorem Edits.run {o n : List String} {s : List Op} (h : Edits o n s) :
    keepRun s ≤ o.length ∧ keepRun s ≤ n.length ∧ o.take (keepRun s) = n.take (keepRun s) ∧
      Edits (o.drop (keepRun s)) (n.drop (keepRun s)) (s.drop (keepRun s)) := by
  induction h with
  | nil => exact ⟨Nat.zero_le _, Nat.zero_le _, rfl, .nil⟩
  | @keep x o n s h ih =>
    obtain ⟨ho, hn, htake, hrest⟩ := ih
    rw [keepRun_keep]
    refine ⟨Nat.succ_le_succ ho, Nat.succ_le_succ hn, ?_, hrest⟩
    rw [List.take_succ_cons, List.take_succ_cons, htake]
  | @del x o n s h ih =>
    rw [keepRun_change (by decide)]
    exact ⟨Nat.zero_le _, Nat.zero_le _, rfl, h.del⟩
  | @add x o n s h ih =>
    rw [keepRun_change (by decide)]
    exact ⟨Nat.zero_le _, Nat.zero_le _, rfl, h.add⟩

/-- From positions `i` and `j` on, both texts have the same `g` lines. -/
structure Same (o n : List String) (i j g : Nat) : Prop where
  eq : slice o i (i + g) = slice n j (j + g)
  obound : i + g ≤ o.length
  nbound : j + g ≤ n.length

theorem Edits.same (h : Edits (o.drop i) (n.drop j) script) (hi : i ≤ o.length)
    (hj : j ≤ n.length) : Same o n i j (keepRun script) ∧
      Edits (o.drop (i + keepRun script)) (n.drop (j + keepRun script))
        (script.drop (keepRun script)) := by
  obtain ⟨ho, hn, htake, hrest⟩ := h.run
  rw [List.length_drop] at ho hn
  rw [List.drop_drop, List.drop_drop] at hrest
  refine ⟨⟨?_, by omega, by omega⟩, hrest⟩
  rw [slice, slice, Nat.add_sub_cancel_left, Nat.add_sub_cancel_left]
  exact htake

theorem Same.append (h : Same o n i j g) (h' : Same o n (i + g) (j + g) k) :
    Same o n i j (g + k) := by
  obtain ⟨heq', ho', hn'⟩ := h'
  refine ⟨?_, by omega, by omega⟩
  rw [← Nat.add_assoc, ← Nat.add_assoc, ← slice_append_slice o (by omega) (Nat.le_add_right _ k),
    ← slice_append_slice n (by omega) (Nat.le_add_right _ k), h.eq, heq']

theorem Same.split (h : Same o n i j (g + k)) :
    Same o n i j g ∧ Same o n (i + g) (j + g) k := by
  obtain ⟨heq, ho, hn⟩ := h
  rw [← Nat.add_assoc, ← Nat.add_assoc, ← slice_append_slice o (by omega) (Nat.le_add_right _ k),
    ← slice_append_slice n (by omega) (Nat.le_add_right _ k)] at heq
  have hlen : (slice o i (i + g)).length = (slice n j (j + g)).length := by
    rw [length_slice (by omega), length_slice (by omega)]
    omega
  obtain ⟨hleft, hright⟩ := List.append_inj heq hlen
  exact ⟨⟨hleft, by omega, by omega⟩, hright, by omega, by omega⟩

theorem Same.drop_eq (h : Same o n i j g) (hrest : o.drop (i + g) = n.drop (j + g)) :
    o.drop i = n.drop j := by
  rw [← slice_append_drop o (Nat.le_add_right i g), ← slice_append_drop n (Nat.le_add_right j g),
    h.eq, hrest]

/-! ## What a hunk covers -/

/-- The old lines of a body: its context and the lines it removes. -/
def oldLines (body : List (Op × String)) : List String :=
  (body.filter (fun l => l.1 ≠ .add)).map (·.2)

/-- The new lines of a body: its context and the lines it adds. -/
def newLines (body : List (Op × String)) : List String :=
  (body.filter (fun l => l.1 ≠ .del)).map (·.2)

theorem oldLines_append (xs ys : List (Op × String)) :
    oldLines (xs ++ ys) = oldLines xs ++ oldLines ys := by
  simp [oldLines]

theorem newLines_append (xs ys : List (Op × String)) :
    newLines (xs ++ ys) = newLines xs ++ newLines ys := by
  simp [newLines]

/-- Started at `a` and `b`, the hunk has covered both texts up to the lines consumed. -/
structure Covers (o n : List String) (a b : Nat) (st : HunkState) : Prop where
  oline : st.oline = a + st.ocount
  nline : st.nline = b + st.ncount
  old : oldLines st.body = slice o a st.oline
  new : newLines st.body = slice n b st.nline
  obound : st.oline ≤ o.length
  nbound : st.nline ≤ n.length

variable {a b : Nat} {st : HunkState}

theorem slice_snoc {xs : List String} (h : a ≤ i) (hi : i < xs.length) :
    slice xs a (i + 1) = slice xs a i ++ [xs.getD i ""] := by
  rw [← slice_append_slice xs h (Nat.le_succ i), slice_eq_cons (Nat.lt_succ_self i) hi, slice_self]

theorem Covers.del (h : Covers o n a b st) (hlt : st.oline < o.length) :
    Covers o n a b (st.del o) where
  oline := by
    change st.oline + 1 = a + (st.ocount + 1)
    rw [h.oline, Nat.add_assoc]
  nline := h.nline
  old := by
    change oldLines (st.body ++ [(.del, o.getD st.oline "")]) = slice o a (st.oline + 1)
    rw [oldLines_append, h.old, slice_snoc (h.oline ▸ Nat.le_add_right a _) hlt]
    rfl
  new := by
    change newLines (st.body ++ [(.del, o.getD st.oline "")]) = slice n b st.nline
    rw [newLines_append, h.new]
    exact List.append_nil _
  obound := hlt
  nbound := h.nbound

theorem Covers.add (h : Covers o n a b st) (hlt : st.nline < n.length) :
    Covers o n a b (st.add n) where
  oline := h.oline
  nline := by
    change st.nline + 1 = b + (st.ncount + 1)
    rw [h.nline, Nat.add_assoc]
  old := by
    change oldLines (st.body ++ [(.add, n.getD st.nline "")]) = slice o a st.oline
    rw [oldLines_append, h.old]
    exact List.append_nil _
  new := by
    change newLines (st.body ++ [(.add, n.getD st.nline "")]) = slice n b (st.nline + 1)
    rw [newLines_append, h.new, slice_snoc (h.nline ▸ Nat.le_add_right b _) hlt]
    rfl
  obound := h.obound
  nbound := hlt

theorem Covers.context (h : Covers o n a b st) (ho : st.oline < o.length)
    (hn : st.nline < n.length) (heq : o.getD st.oline "" = n.getD st.nline "") :
    Covers o n a b (st.context o) where
  oline := by
    change st.oline + 1 = a + (st.ocount + 1)
    rw [h.oline, Nat.add_assoc]
  nline := by
    change st.nline + 1 = b + (st.ncount + 1)
    rw [h.nline, Nat.add_assoc]
  old := by
    change oldLines (st.body ++ [(.keep, o.getD st.oline "")]) = slice o a (st.oline + 1)
    rw [oldLines_append, h.old, slice_snoc (h.oline ▸ Nat.le_add_right a _) ho]
    rfl
  new := by
    change newLines (st.body ++ [(.keep, o.getD st.oline "")]) = slice n b (st.nline + 1)
    rw [newLines_append, h.new, slice_snoc (h.nline ▸ Nat.le_add_right b _) hn, ← heq]
    rfl
  obound := ho
  nbound := hn

/-- Lines written as context, of a stretch that both texts have. -/
theorem Covers.contexts (h : Covers o n a b st) (hsame : Same o n st.oline st.nline k) :
    Covers o n a b (st.contexts o k) ∧ (st.contexts o k).oline = st.oline + k ∧
      (st.contexts o k).nline = st.nline + k ∧
      (st.contexts o k).ocount = st.ocount + k ∧ (st.contexts o k).ncount = st.ncount + k := by
  induction k generalizing st with
  | zero => exact ⟨h, rfl, rfl, rfl, rfl⟩
  | succ k ih =>
    rw [Nat.add_comm k 1] at hsame
    obtain ⟨hfirst, hrest⟩ := hsame.split
    obtain ⟨heq, ho, hn⟩ := hfirst
    rw [slice_eq_cons (Nat.lt_succ_self _) ho, slice_eq_cons (Nat.lt_succ_self _) hn] at heq
    obtain ⟨hcov, holine, hnline, hocount, hncount⟩ :=
      ih (h.context ho hn (List.cons.inj heq).1) hrest
    rw [HunkState.contexts]
    refine ⟨hcov, holine.trans ?_, hnline.trans ?_, hocount.trans ?_, hncount.trans ?_⟩ <;>
      simp only [HunkState.context] <;> omega

/-! ## Growing a hunk -/

/-- Every change counts once, in the old text or in the new one. -/
theorem consumeChanges_spec (hscript : Edits (o.drop st.oline) (n.drop st.nline) script)
    (h : Covers o n a b st) :
    let r := consumeChanges o n script st
    Edits (o.drop r.2.oline) (n.drop r.2.nline) r.1 ∧ Covers o n a b r.2 ∧
      r.1.length + (r.2.ocount + r.2.ncount) = script.length + (st.ocount + st.ncount) ∧
      r.1.length ≤ script.length ∧
      (keepRun script = 0 → script ≠ [] → r.1.length < script.length) := by
  induction script generalizing st with
  | nil => exact ⟨hscript, h, rfl, Nat.le_refl _, fun _ hne => absurd rfl hne⟩
  | cons op s ih =>
    cases op with
    | keep =>
      refine ⟨hscript, h, rfl, Nat.le_refl _, fun hrun => ?_⟩
      rw [keepRun_keep] at hrun
      cases hrun
    | del =>
      obtain ⟨hlt, hrest⟩ := hscript.del_inv
      obtain ⟨hedits, hcov, hcount, hle, -⟩ := @ih (st.del o) hrest (h.del hlt)
      refine ⟨hedits, hcov, hcount.trans ?_, Nat.le_succ_of_le hle,
        fun _ _ => Nat.lt_succ_of_le hle⟩
      simp only [HunkState.del, List.length_cons]
      omega
    | add =>
      obtain ⟨hlt, hrest⟩ := hscript.add_inv
      obtain ⟨hedits, hcov, hcount, hle, -⟩ := @ih (st.add n) hrest (h.add hlt)
      refine ⟨hedits, hcov, hcount.trans ?_, Nat.le_succ_of_le hle,
        fun _ _ => Nat.lt_succ_of_le hle⟩
      simp only [HunkState.add, List.length_cons]
      omega

/-- The hunk is closed in state `c`; the counters go on over a stretch of `g` lines, which both
texts have and which is longer than the context unless the script is at its end. -/
structure Closes (o n : List String) (a b : Nat) (script : List Op) (st c : HunkState) (g : Nat)
    (script' : List Op) : Prop where
  covers : Covers o n a b c
  same : Same o n c.oline c.nline g
  edits : Edits (o.drop (c.oline + g)) (n.drop (c.nline + g)) script'
  shorter : script'.length < script.length
  grows : st.ocount + st.ncount < c.ocount + c.ncount
  gap : script' = [] ∨ CONTEXT < g

theorem growHunk_closes {fuel : Nat} (hfuel : script.length ≤ fuel)
    (hscript : Edits (o.drop st.oline) (n.drop st.nline) script) (h : Covers o n a b st)
    (hrun : keepRun script = 0) (hne : script ≠ []) :
    ∃ c g script', growHunk o n fuel script st =
        (script', ⟨c.oline + g, c.nline + g, c.ocount, c.ncount, c.body⟩) ∧
      Closes o n a b script st c g script' := by
  induction fuel generalizing script st with
  | zero => exact absurd (List.length_eq_zero_iff.mp (by omega)) hne
  | succ fuel ih =>
    obtain ⟨hedits, hcov, hcount, -, hshorter⟩ := consumeChanges_spec hscript h
    have hlt := hshorter hrun hne
    unfold growHunk
    revert hedits hcov hcount hlt
    generalize consumeChanges o n script st = r
    obtain ⟨s, st₁⟩ := r
    intro hedits hcov hcount hlt
    dsimp only at hedits hcov hcount hlt ⊢
    obtain ⟨hsame, hrest⟩ := hedits.same hcov.obound hcov.nbound
    have hdrop : (s.drop (keepRun s)).length ≤ s.length := by
      rw [List.length_drop]
      omega
    split_ifs with hclose
    · obtain ⟨hcov₂, holine, hnline, hocount, hncount⟩ := hcov.contexts hsame
      rw [← holine, ← hnline] at hrest
      have hne' : s.drop (keepRun s) ≠ [] := by
        rw [ne_eq, List.drop_eq_nil_iff]
        omega
      obtain ⟨c, g, s', hrun', hcloses⟩ := ih (by omega) hrest hcov₂ (keepRun_drop s) hne'
      refine ⟨c, g, s', hrun', hcloses.covers, hcloses.same, hcloses.edits, ?_, ?_, hcloses.gap⟩
      · exact hcloses.shorter.trans_le (hdrop.trans hlt.le)
      · have hgrows := hcloses.grows
        omega
    · have htail : min (keepRun s) CONTEXT + (keepRun s - min (keepRun s) CONTEXT) = keepRun s := by
        omega
      rw [← htail] at hsame
      obtain ⟨hfirst, hgap⟩ := hsame.split
      obtain ⟨hcov₂, holine, hnline, hocount, hncount⟩ := hcov.contexts hfirst
      rw [← holine, ← hnline] at hgap
      refine ⟨_, _, _, rfl, hcov₂, hgap, ?_, by omega, by omega, ?_⟩
      · rw [holine, hnline, Nat.add_assoc, Nat.add_assoc, htail]
        exact hrest
      · by_cases hend : keepRun s < s.length
        · have hlong : ¬keepRun s ≤ 2 * CONTEXT := fun hle => hclose ⟨hend, hle⟩
          rw [CONTEXT] at hlong ⊢
          exact .inr (by omega)
        · exact .inl (List.drop_eq_nil_of_le (by omega))

/-! ## The hunks in order -/

/-- The hunk covers one stretch of either text, which its counters and its lines agree with. -/
structure Exact (o n : List String) (h : Hunk) : Prop where
  old : oldLines h.body = slice o h.ostart (h.ostart + h.ocount)
  new : newLines h.body = slice n h.nstart (h.nstart + h.ncount)
  obound : h.ostart + h.ocount ≤ o.length
  nbound : h.nstart + h.ncount ≤ n.length

/-- From positions `i` and `j` on the texts differ by the hunks, with the same lines before each
of them and after the last. -/
inductive Patches (o n : List String) : Nat → Nat → List Hunk → Prop
  | nil {i j : Nat} (h : o.drop i = n.drop j) : Patches o n i j []
  | cons {i j gap : Nat} {h : Hunk} {hs : List Hunk} (hexact : Exact o n h)
      (hostart : h.ostart = i + gap) (hnstart : h.nstart = j + gap)
      (hsame : slice o i h.ostart = slice n j h.nstart) (hgap : i + j = 0 ∨ 0 < gap)
      (hne : 0 < h.ocount + h.ncount)
      (hrest : Patches o n (h.ostart + h.ocount) (h.nstart + h.ncount) hs) :
      Patches o n i j (h :: hs)

theorem map_range_getD {xs : List String} (h : a + k ≤ xs.length) :
    (List.range k).map (fun m => xs.getD (a + m) "") = slice xs a (a + k) := by
  induction k with
  | zero => exact (slice_self xs a).symm
  | succ k ih =>
    rw [List.range_succ, List.map_append, ih (by omega), ← Nat.add_assoc,
      slice_snoc (Nat.le_add_right a k) (by omega)]
    rfl

theorem covers_lead (h : Same o n a b k) : Covers o n a b ⟨a + k, b + k, k, k,
    (List.range k).map (fun m => (Op.keep, o.getD (a + m) ""))⟩ := by
  have hlines : ((List.range k).map (fun m => (Op.keep, o.getD (a + m) ""))).map (·.2) =
      slice o a (a + k) := by
    rw [List.map_map, ← map_range_getD h.obound]
    rfl
  have hall : ∀ l ∈ (List.range k).map (fun m => (Op.keep, o.getD (a + m) "")), l.1 = .keep := by
    intro l hl
    obtain ⟨m, -, rfl⟩ := List.mem_map.mp hl
    rfl
  refine ⟨rfl, rfl, ?_, ?_, h.obound, h.nbound⟩
  · rw [oldLines, List.filter_eq_self.mpr (fun l hl => by simp [hall l hl]), hlines]
  · rw [newLines, List.filter_eq_self.mpr (fun l hl => by simp [hall l hl]), hlines, h.eq]

/-- The positions stand `g` unchanged lines behind the last hunk. -/
theorem hunksFrom_patches {fuel : Nat} (hfuel : script.length ≤ fuel)
    (hscript : Edits (o.drop (i + g)) (n.drop (j + g)) script) (h : Same o n i j g)
    (hgap : i = 0 ∧ j = 0 ∨ script = [] ∨ CONTEXT < g) :
    Patches o n i j (hunksFrom o n fuel script (i + g) (j + g)) := by
  induction fuel generalizing script i j g with
  | zero =>
    obtain rfl := List.length_eq_zero_iff.mp (Nat.le_zero.mp hfuel)
    obtain ⟨ho, hn⟩ := hscript.eq_nil
    exact .nil (h.drop_eq (ho.trans hn.symm))
  | succ fuel ih =>
    obtain ⟨hrun, hrest⟩ := hscript.same h.obound h.nbound
    have hall := h.append hrun
    rw [Nat.add_assoc, Nat.add_assoc] at hrest
    unfold hunksFrom
    dsimp only
    split_ifs with hend
    · rw [hend] at hrest
      obtain ⟨ho, hn⟩ := hrest.eq_nil
      exact .nil (hall.drop_eq (ho.trans hn.symm))
    · have hne : script ≠ [] := by
        rintro rfl
        exact hend List.drop_nil
      rw [Nat.add_assoc, Nat.add_assoc]
      generalize hG : g + keepRun script = G at hall hrest
      have hctx : i = 0 ∧ j = 0 ∨ CONTEXT < G := by
        rcases hgap with hzero | hnil | hlt
        · exact .inl hzero
        · exact absurd hnil hne
        · exact .inr (by omega)
      -- the context before the change lies in the stretch behind the last hunk
      generalize hlead : min CONTEXT (min (i + G) (j + G)) = lead
      have hle : lead ≤ G := by omega
      obtain ⟨gap, rfl⟩ : ∃ gap, G = gap + lead := ⟨G - lead, by omega⟩
      obtain ⟨hbefore, hcontext⟩ := hall.split
      have hostart : i + (gap + lead) - lead = i + gap := by omega
      have hnstart : j + (gap + lead) - lead = j + gap := by omega
      rw [hostart, hnstart]
      have hcov := covers_lead hcontext
      rw [Nat.add_assoc, Nat.add_assoc] at hcov
      obtain ⟨c, g', s', hgrow, hcloses⟩ :=
        growHunk_closes (Nat.le_refl _) hrest hcov (keepRun_drop script) hend
      rw [hgrow]
      have hshorter := hcloses.shorter
      rw [List.length_drop] at hshorter
      have hnext := ih (by omega) hcloses.edits hcloses.same (.inr hcloses.gap)
      obtain ⟨holine, hnline, hold, hnew, hobound, hnbound⟩ := hcloses.covers
      have hgrows := hcloses.grows
      dsimp only at hgrows ⊢
      rw [holine] at hold hobound
      rw [hnline] at hnew hnbound
      refine .cons ⟨hold, hnew, hobound, hnbound⟩ rfl rfl hbefore.eq ?_ ?_ ?_
      · rcases hctx with hzero | hlt
        · exact .inl (by omega)
        · exact .inr (by omega)
      · exact (Nat.zero_le _).trans_lt hgrows
      · rw [← holine, ← hnline]
        exact hnext

theorem hunks_patches (o n : List String) : Patches o n 0 0 (hunks o n) := by
  refine @hunksFrom_patches o n _ 0 0 0 _ (Nat.le_refl _) (editScript_edits o n) ⟨?_, ?_, ?_⟩
    (.inl ⟨rfl, rfl⟩)
  · rw [slice_self, slice_self]
  · exact Nat.zero_le _
  · exact Nat.zero_le _

/-! ## A correct patch -/

/-- The old text from line `i` on with each hunk's old lines replaced by its new lines. -/
def replaceHunks (o : List String) : Nat → List Hunk → List String
  | i, [] => o.drop i
  | i, h :: hs =>
    slice o i h.ostart ++ newLines h.body ++ replaceHunks o (h.ostart + h.ocount) hs

variable {hs : List Hunk}

theorem Patches.replace (h : Patches o n i j hs) : replaceHunks o i hs = n.drop j := by
  induction h with
  | nil h => exact h
  | @cons i j gap h hs hexact hostart hnstart hsame hgap hne hrest ih =>
    rw [replaceHunks, ih, hsame, hexact.new,
      slice_append_slice n (by omega) (Nat.le_add_right _ _), slice_append_drop n (by omega)]

theorem Patches.exact_of_mem (h : Patches o n i j hs) : ∀ k ∈ hs, Exact o n k := by
  induction h with
  | nil h => exact fun k hk => absurd hk List.not_mem_nil
  | cons hexact _ _ _ _ _ _ ih =>
    intro k hk
    rcases List.mem_cons.mp hk with rfl | hk
    · exact hexact
    · exact ih k hk

/-- Past the first line, every hunk starts behind both positions. -/
theorem Patches.after (h : Patches o n i j hs) (hpos : 0 < i + j) :
    ∀ k ∈ hs, i < k.ostart ∧ j < k.nstart := by
  induction h with
  | nil h => exact fun k hk => absurd hk List.not_mem_nil
  | cons hexact hostart hnstart hsame hgap hne hrest ih =>
    intro k hk
    rcases List.mem_cons.mp hk with rfl | hk
    · omega
    · have hlater := ih (by omega) k hk
      omega

theorem Patches.ordered (h : Patches o n i j hs) : hs.Pairwise (fun h k =>
    h.ostart + h.ocount < k.ostart ∧ h.nstart + h.ncount < k.nstart) := by
  induction h with
  | nil h => exact .nil
  | cons hexact hostart hnstart hsame hgap hne hrest ih =>
    exact .cons (hrest.after (by omega)) ih

theorem unified_eq_nil (path old new : String) : unified path old new = "" ↔ old = new := by
  unfold unified
  split_ifs with heq
  · exact iff_of_true rfl heq
  · refine iff_of_false (fun hnil => ?_) heq
    have hlen := congrArg String.length hnil
    simp only [String.length_append] at hlen
    have hdashes : "--- a/".length = 6 := rfl
    have hempty : "".length = 0 := rfl
    omega

/-- The displayed diff is empty for equal texts only. Else it is the header and hunks in order,
apart from each other, each with the counters of its own body, its old lines where the header
says in the old text and its new lines where it says in the new one; with the hunks' old lines
replaced by their new ones the old lines become the new lines. -/
theorem unified_patch (path old new : String) :
    (unified path old new = "" ↔ old = new) ∧
    (old ≠ new → unified path old new = "--- a/" ++ path ++ "\n+++ b/" ++ path ++ "\n" ++
      String.join ((hunks (linesOf old) (linesOf new)).map Hunk.text)) ∧
    (hunks (linesOf old) (linesOf new)).Pairwise (fun h k =>
      h.ostart + h.ocount < k.ostart ∧ h.nstart + h.ncount < k.nstart) ∧
    (∀ h ∈ hunks (linesOf old) (linesOf new),
      (oldLines h.body).length = h.ocount ∧ (newLines h.body).length = h.ncount ∧
      oldLines h.body = slice (linesOf old) h.ostart (h.ostart + h.ocount) ∧
      newLines h.body = slice (linesOf new) h.nstart (h.nstart + h.ncount)) ∧
    replaceHunks (linesOf old) 0 (hunks (linesOf old) (linesOf new)) = linesOf new := by
  have hpatches := hunks_patches (linesOf old) (linesOf new)
  refine ⟨unified_eq_nil path old new, fun hne => if_neg hne, hpatches.ordered, fun h hin => ?_,
    hpatches.replace⟩
  obtain ⟨hold, hnew, hobound, hnbound⟩ := hpatches.exact_of_mem h hin
  refine ⟨?_, ?_, hold, hnew⟩
  · rw [hold, length_slice hobound, Nat.add_sub_cancel_left]
  · rw [hnew, length_slice hnbound, Nat.add_sub_cancel_left]

end SrcControl.TextDiff
