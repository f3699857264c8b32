import SrcControl.Repo.Diff3Clusters

/-!
# The line merge rebuilds both sides

The windows of the clusters follow each other in the base. The stretches between them with each
cluster's text on one side give that side back, and a merge without conflict takes in each
window the text of every side that changed it.
-/

namespace SrcControl.Diff3

/-! ## The hunks of both sides -/

def taggedHunks (b o t : List String) : List (Side × Hunk) :=
  (diffHunks b o).map (fun h => (Side.ours, h)) ++ (diffHunks b t).map (fun h => (Side.theirs, h))

def linesOf (o t : List String) : Side → List String
  | .ours => o
  | .theirs => t

/-- The hunks of one side among those of a cluster. -/
def sideHunks (all : List (Side × Hunk)) (side : Side) (c : List Nat) : List Hunk :=
  (c.filterMap (fun i => all[i]?)).filterMap (fun (s, h) => if s = side then some h else none)

variable {b o t : List String} {all : List (Side × Hunk)} {side : Side} {c : List Nat}
  {cs : List (List Nat)}

theorem Apart.valid {i : Nat} {hs : List Hunk} (hap : Apart b i hs) :
    ∀ h ∈ hs, i ≤ h.baseStart ∧ h.baseStart ≤ h.baseEnd ∧ h.baseEnd ≤ b.length := by
  induction hap with
  | nil => exact fun h hin => absurd hin List.not_mem_nil
  | @cons i k hs hi hle hb hne _ ih =>
    intro h hin
    rcases List.mem_cons.mp hin with rfl | hin
    · exact ⟨hi, hle, hb⟩
    · obtain ⟨hstart, hrest⟩ := ih h hin
      exact ⟨by omega, hrest⟩

theorem Apart.raise {i lo : Nat} {hs : List Hunk} (hap : Apart b i hs)
    (hlo : ∀ h ∈ hs, lo ≤ h.baseStart) : Apart b lo hs := by
  cases hap with
  | nil => exact .nil
  | cons hi hle hb hne hrest => exact .cons (hlo _ List.mem_cons_self) hle hb hne hrest

theorem taggedHunks_tagged (b o t : List String) : Tagged b (taggedHunks b o t) := by
  have hvalid : ∀ x, ∀ h ∈ diffHunks b x, h.baseStart ≤ h.baseEnd ∧ h.baseEnd ≤ b.length :=
    fun x h hin => ((diffHunks_apart b x).valid h hin).2
  constructor
  · intro a hin
    rcases List.mem_append.mp hin with hin | hin
    · obtain ⟨h, hh, rfl⟩ := List.mem_map.mp hin
      exact hvalid o h hh
    · obtain ⟨h, hh, rfl⟩ := List.mem_map.mp hin
      exact hvalid t h hh
  · refine List.pairwise_append.mpr ⟨?_, ?_, ?_⟩
    · refine List.pairwise_map.mpr (List.Pairwise.imp ?_ (diffHunks_apart b o).before)
      exact fun hbefore _ => hbefore
    · refine List.pairwise_map.mpr (List.Pairwise.imp ?_ (diffHunks_apart b t).before)
      exact fun hbefore _ => hbefore
    · intro a ha a' ha' heq
      obtain ⟨h, -, rfl⟩ := List.mem_map.mp ha
      obtain ⟨h', -, rfl⟩ := List.mem_map.mp ha'
      cases heq

theorem mem_sideHunks {h : Hunk} :
    h ∈ sideHunks all side c ↔ ∃ i ∈ c, all[i]? = some (side, h) := by
  rw [sideHunks, List.mem_filterMap]
  constructor
  · rintro ⟨⟨s, k⟩, hin, hk⟩
    obtain ⟨i, hi, hget⟩ := List.mem_filterMap.mp hin
    by_cases hs : s = side
    · obtain rfl := Option.some.inj ((if_pos hs).symm.trans hk)
      exact ⟨i, hi, hs ▸ hget⟩
    · exact absurd ((if_neg hs).symm.trans hk) (Option.some_ne_none h).symm
  · rintro ⟨i, hi, hget⟩
    exact ⟨_, List.mem_filterMap.mpr ⟨i, hi, hget⟩, if_pos rfl⟩

theorem filterMap_range_getElem? {α : Type} (xs : List α) :
    (List.range xs.length).filterMap (fun i => xs[i]?) = xs := by
  induction xs using List.reverseRecOn with
  | nil => rfl
  | append_singleton xs x ih =>
    have hsame : (List.range xs.length).filterMap (fun i => (xs ++ [x])[i]?) =
        (List.range xs.length).filterMap (fun i => xs[i]?) := by
      refine List.filterMap_congr (fun i hi => ?_)
      rw [List.getElem?_append_left (List.mem_range.mp hi)]
    rw [List.length_append, List.length_singleton, List.range_succ, List.filterMap_append, hsame,
      ih]
    simp

/-- All hunks of a side are those of its diff. -/
theorem sideHunks_all (b o t : List String) (side : Side) :
    sideHunks (taggedHunks b o t) side (List.range (taggedHunks b o t).length) =
      diffHunks b (linesOf o t side) := by
  have hsame : ∀ (s : Side) (hs : List Hunk), (hs.map (fun h => (s, h))).filterMap
      (fun (s, h) => if s = side then some h else none) = if s = side then hs else [] := by
    intro s hs
    rw [List.filterMap_map]
    split_ifs with heq
    · exact (List.filterMap_congr (fun h _ => if_pos heq)).trans List.filterMap_some
    · exact List.filterMap_eq_nil_iff.mpr (fun h _ => if_neg heq)
  rw [sideHunks, filterMap_range_getElem?, taggedHunks, List.filterMap_append, hsame, hsame]
  cases side <;> simp [linesOf]

theorem sideHunks_sublist (h : c.Sublist (List.range all.length)) :
    (sideHunks all side c).Sublist (sideHunks all side (List.range all.length)) :=
  (h.filterMap _).filterMap _

/-- The clusters hold the hunks of a side in order. -/
theorem flatMap_sideHunks (hcl : Clustered all cs)
    (hap : Apart b 0 (sideHunks all side (List.range all.length))) :
    cs.flatMap (sideHunks all side) = sideHunks all side (List.range all.length) := by
  have hperm : (cs.flatMap (sideHunks all side)).Perm
      (sideHunks all side (List.range all.length)) := by
    have hflat : cs.flatMap (sideHunks all side) = sideHunks all side cs.flatten := by
      unfold sideHunks
      rw [List.filterMap_flatten, List.filterMap_flatten, List.map_map, List.flatMap_def]
      rfl
    rw [hflat]
    exact (hcl.perm.filterMap _).filterMap _
  have hvalid : ∀ h ∈ sideHunks all side (List.range all.length), h.baseStart ≤ h.baseEnd :=
    fun h hin => (hap.valid h hin).2.1
  refine @List.Perm.eq_of_pairwise _ Before _ _ (fun h k hh hk hhk hkh => ?_) ?_ hap.before hperm
  · exact absurd hkh (hhk.asymm (hvalid h (hperm.subset hh)) (hvalid k hk))
  · refine List.pairwise_flatMap.mpr ⟨fun c hin => ?_, ?_⟩
    · exact (hap.sublist (sideHunks_sublist (hcl.sublist c hin))).before
    · refine hcl.ordered.imp (fun {c c'} hcc h hh k hk => ?_)
      obtain ⟨i, hi, hgi⟩ := mem_sideHunks.mp hh
      obtain ⟨j, hj, hgj⟩ := mem_sideHunks.mp hk
      obtain ⟨a, a', ha, ha', hbefore⟩ := hcc i hi j hj
      obtain rfl := Option.some.inj (hgi.symm.trans ha)
      obtain rfl := Option.some.inj (hgj.symm.trans ha')
      exact hbefore

/-! ## The windows of the clusters -/

def windowLo (all : List (Side × Hunk)) (c : List Nat) : Nat :=
  ((c.filterMap (fun i => (all[i]?).map (·.2))).map (·.baseStart)).min?.getD 0

def windowHi (all : List (Side × Hunk)) (c : List Nat) : Nat :=
  ((c.filterMap (fun i => (all[i]?).map (·.2))).map (·.baseEnd)).max?.getD 0

theorem windowLo_eq (all : List (Side × Hunk)) (c : List Nat) :
    windowLo all c = earliest all c := by
  rw [windowLo, earliest, List.map_filterMap]
  simp only [Option.map_map, Function.comp_def]

theorem le_max?_getD {xs : List Nat} {x : Nat} (hx : x ∈ xs) : x ≤ xs.max?.getD 0 := by
  rcases hm : xs.max? with _ | m
  · rw [List.max?_eq_none_iff.mp hm] at hx
    cases hx
  · exact (List.max?_eq_some_iff.mp hm).2 x hx

theorem max?_getD_mem {xs : List Nat} (hx : xs ≠ []) : xs.max?.getD 0 ∈ xs := by
  rcases hm : xs.max? with _ | m
  · exact absurd (List.max?_eq_none_iff.mp hm) hx
  · exact (List.max?_eq_some_iff.mp hm).1

theorem windowLo_le {i : Nat} {a : Side × Hunk} (hi : i ∈ c) (ha : all[i]? = some a) :
    windowLo all c ≤ a.2.baseStart :=
  windowLo_eq all c ▸ earliest_le hi ha

theorem le_windowHi {i : Nat} {a : Side × Hunk} (hi : i ∈ c) (ha : all[i]? = some a) :
    a.2.baseEnd ≤ windowHi all c :=
  le_max?_getD (List.mem_map.mpr ⟨a.2, List.mem_filterMap.mpr ⟨i, hi, by rw [ha]; rfl⟩, rfl⟩)

theorem windowHi_mem (hc : c ≠ []) (hlt : ∀ i ∈ c, i < all.length) :
    ∃ i ∈ c, ∃ a, all[i]? = some a ∧ windowHi all c = a.2.baseEnd := by
  obtain ⟨i, hi⟩ := List.exists_mem_of_ne_nil c hc
  have hget := List.getElem?_eq_getElem (hlt i hi)
  have hne : (c.filterMap (fun i => (all[i]?).map (·.2))).map (·.baseEnd) ≠ [] :=
    List.ne_nil_of_mem (List.mem_map.mpr
      ⟨_, List.mem_filterMap.mpr ⟨i, hi, by rw [hget]; rfl⟩, rfl⟩)
  obtain ⟨h, hin, hend⟩ := List.mem_map.mp (max?_getD_mem hne)
  obtain ⟨j, hj, hgetj⟩ := List.mem_filterMap.mp hin
  obtain ⟨a, ha, rfl⟩ := Option.map_eq_some_iff.mp hgetj
  exact ⟨j, hj, a, ha, hend.symm⟩

/-- From line `bi` on, each cluster's window starts where the one before it ends or later, holds
the ranges of the cluster's hunks, and lies in the base. -/
inductive Windows (b : List String) (all : List (Side × Hunk)) : Nat → List (List Nat) → Prop
  | nil {bi : Nat} (h : bi ≤ b.length) : Windows b all bi []
  | cons {bi : Nat} {c : List Nat} {cs : List (List Nat)} (hne : c ≠ [])
      (hlo : bi ≤ windowLo all c) (hle : windowLo all c ≤ windowHi all c)
      (hin : ∀ i ∈ c, ∃ a, all[i]? = some a ∧ windowLo all c ≤ a.2.baseStart ∧
        a.2.baseStart ≤ a.2.baseEnd ∧ a.2.baseEnd ≤ windowHi all c)
      (h : Windows b all (windowHi all c) cs) : Windows b all bi (c :: cs)

theorem windows_of_ordered {bi : Nat} (ht : Tagged b all) (hne : ∀ c ∈ cs, c ≠ [])
    (hlt : ∀ c ∈ cs, ∀ i ∈ c, i < all.length)
    (hord : cs.Pairwise (fun c c' => ∀ i ∈ c, ∀ j ∈ c', BeforeAt all i j))
    (hbi : ∀ c ∈ cs, bi ≤ windowLo all c) (hb : bi ≤ b.length) : Windows b all bi cs := by
  induction cs generalizing bi with
  | nil => exact .nil hb
  | cons c cs ih =>
    obtain ⟨hfirst, hrest⟩ := List.pairwise_cons.mp hord
    have hhead : c ∈ c :: cs := List.mem_cons_self
    have htail : ∀ c' ∈ cs, c' ∈ c :: cs := fun c' hin => List.mem_cons_of_mem c hin
    have hin : ∀ i ∈ c, ∃ a, all[i]? = some a ∧ windowLo all c ≤ a.2.baseStart ∧
        a.2.baseStart ≤ a.2.baseEnd ∧ a.2.baseEnd ≤ windowHi all c := by
      intro i hi
      have hget := List.getElem?_eq_getElem (hlt c hhead i hi)
      exact ⟨_, hget, windowLo_le hi hget, (ht.valid _ (List.mem_of_getElem? hget)).1,
        le_windowHi hi hget⟩
    obtain ⟨i, hi, a, ha, hend⟩ := windowHi_mem (hne c hhead) (hlt c hhead)
    obtain ⟨a', ha', hstart, hvalid, -⟩ := hin i hi
    obtain rfl := Option.some.inj (ha.symm.trans ha')
    refine .cons (hne c hhead) (hbi c hhead) (by omega) hin (ih (fun c' hc' => hne c' (htail c' hc'))
      (fun c' hc' => hlt c' (htail c' hc')) hrest (fun c' hc' => ?_) ?_)
    · obtain ⟨j, hj, k, hk, hearliest⟩ := earliest_mem (hne c' (htail c' hc')) (hlt c' (htail c' hc'))
      obtain ⟨e, e', he, he', hle, -⟩ := hfirst c' hc' i hi j hj
      obtain rfl := Option.some.inj (ha.symm.trans he)
      obtain rfl := Option.some.inj (hk.symm.trans he')
      rw [windowLo_eq, hearliest, hend]
      exact hle
    · rw [hend]
      exact (ht.valid a (List.mem_of_getElem? ha)).2

theorem Clustered.lt (hcl : Clustered all cs) : ∀ c ∈ cs, ∀ i ∈ c, i < all.length :=
  fun c hin _ hi => List.mem_range.mp ((hcl.sublist c hin).subset hi)

theorem Clustered.windows (ht : Tagged b all) (hcl : Clustered all cs) : Windows b all 0 cs :=
  windows_of_ordered ht hcl.nonempty hcl.lt hcl.ordered (fun _ _ => Nat.zero_le _)
    (Nat.zero_le _)

/-! ## A side in a window -/

/-- The base from `cursor` to `hi` with the hunks applied. -/
def applyWindow (b : List String) (hi : Nat) : Nat → List Hunk → List String
  | cursor, [] => slice b cursor hi
  | cursor, h :: hs =>
    slice b cursor h.baseStart ++ h.replacement ++ applyWindow b hi h.baseEnd hs

theorem applySide_eq {lo hi : Nat} (hap : Apart b lo (sideHunks all side c)) :
    applySide b lo hi all c side = applyWindow b hi lo (sideHunks all side c) := by
  have hsorted : (sideHunks all side c).mergeSort (fun h h' => decide (h.baseStart < h'.baseStart ∨
      h.baseStart = h'.baseStart ∧ h.baseEnd ≤ h'.baseEnd)) = sideHunks all side c := by
    refine List.mergeSort_of_pairwise (List.Pairwise.imp_of_mem ?_ hap.before)
    intro h k hh hk hbefore
    have hvh := hap.valid h hh
    have hvk := hap.valid k hk
    have hle := hbefore.1
    have hstrict := hbefore.2
    rw [decide_eq_true_eq]
    omega
  have hrun : ∀ (hs : List Hunk) (out : List String) (cursor : Nat), Apart b cursor hs →
      (let st := hs.foldl (fun (st : List String × Nat) h =>
        (st.1 ++ slice b st.2 h.baseStart ++ h.replacement,
          max (max st.2 h.baseStart) h.baseEnd)) (out, cursor)
      st.1 ++ slice b st.2 hi) = out ++ applyWindow b hi cursor hs := by
    intro hs
    induction hs with
    | nil => exact fun out cursor _ => rfl
    | cons h hs ih =>
      intro out cursor hap
      cases hap with
      | cons hi' hle hb hne hrest =>
        have hmax : max (max cursor h.baseStart) h.baseEnd = h.baseEnd := by omega
        have hnext := ih (out ++ slice b cursor h.baseStart ++ h.replacement) h.baseEnd
          (hrest.weaken (Nat.le_succ _))
        simp only [List.foldl_cons, hmax] at hnext ⊢
        rw [hnext, applyWindow]
        simp only [List.append_assoc]
  have happly := hrun (sideHunks all side c) [] lo hap
  rw [List.nil_append] at happly
  rw [← happly]
  simp only [applySide]
  rw [← sideHunks, hsorted]

/-- The text of a side in the window of a cluster. -/
def sideText (b : List String) (all : List (Side × Hunk)) (side : Side) (c : List Nat) :
    List String :=
  applySide b (windowLo all c) (windowHi all c) all c side

theorem sideText_eq (hsub : c.Sublist (List.range all.length))
    (hap : Apart b 0 (sideHunks all side (List.range all.length))) :
    sideText b all side c = applyWindow b (windowHi all c) (windowLo all c)
      (sideHunks all side c) := by
  refine applySide_eq ((hap.sublist (sideHunks_sublist hsub)).raise (fun h hin => ?_))
  obtain ⟨i, hi, hget⟩ := mem_sideHunks.mp hin
  exact windowLo_le hi hget

/-- The base from `bi` on with the window of each cluster replaced by a text. -/
def weave (b : List String) (all : List (Side × Hunk)) (text : List Nat → List String) :
    Nat → List (List Nat) → List String
  | bi, [] => slice b bi b.length
  | bi, c :: cs => slice b bi (windowLo all c) ++ text c ++ weave b all text (windowHi all c) cs

/-- Hunks up to a line of the base, then those from it on. -/
theorem applyWindow_append {hi cursor : Nat} {xs ys : List Hunk} (hle : cursor ≤ hi)
    (hin : ∀ h ∈ xs, h.baseStart ≤ h.baseEnd ∧ h.baseEnd ≤ hi) (hys : Apart b hi ys) :
    applyWindow b hi cursor xs ++ applyHunks b hi ys = applyHunks b cursor (xs ++ ys) := by
  induction xs generalizing cursor with
  | nil => rw [applyWindow, List.nil_append, applyHunks_skip hle hys]
  | cons h xs ih =>
    have hrest := ih (hin h List.mem_cons_self).2 (fun k hk => hin k (List.mem_cons_of_mem h hk))
    rw [applyWindow, List.cons_append, applyHunks, ← hrest, List.append_assoc]

/-- The hunks of a cluster lie in its window. -/
theorem mem_window {h : Hunk} (hin : ∀ i ∈ c, ∃ a, all[i]? = some a ∧
      windowLo all c ≤ a.2.baseStart ∧ a.2.baseStart ≤ a.2.baseEnd ∧ a.2.baseEnd ≤ windowHi all c)
    (hmem : h ∈ sideHunks all side c) :
    windowLo all c ≤ h.baseStart ∧ h.baseStart ≤ h.baseEnd ∧ h.baseEnd ≤ windowHi all c := by
  obtain ⟨i, hi, hget⟩ := mem_sideHunks.mp hmem
  obtain ⟨a, ha, hrange⟩ := hin i hi
  obtain rfl := Option.some.inj (hget.symm.trans ha)
  exact hrange

theorem Windows.le_start {bi : Nat} (hw : Windows b all bi cs) :
    ∀ h ∈ cs.flatMap (sideHunks all side), bi ≤ h.baseStart := by
  induction hw with
  | nil h => exact fun h hin => absurd hin List.not_mem_nil
  | @cons bi c cs hne hlo hle hin hw ih =>
    intro h hmem
    rw [List.flatMap_cons, List.mem_append] at hmem
    rcases hmem with hmem | hmem
    · exact hlo.trans (mem_window hin hmem).1
    · exact (hlo.trans hle).trans (ih h hmem)

/-- The stretches between the windows with the texts of one side are its lines. -/
theorem weave_sideText {bi : Nat} (hw : Windows b all bi cs)
    (hsub : ∀ c ∈ cs, c.Sublist (List.range all.length))
    (hap : Apart b 0 (sideHunks all side (List.range all.length)))
    (hcs : Apart b bi (cs.flatMap (sideHunks all side))) :
    weave b all (sideText b all side) bi cs = applyHunks b bi (cs.flatMap (sideHunks all side)) := by
  induction hw with
  | nil h => rw [weave, slice_to_end, List.flatMap_nil, applyHunks]
  | @cons bi c cs hne hlo hle hin hw ih =>
    have hrest : Apart b (windowHi all c) (cs.flatMap (sideHunks all side)) := by
      rw [List.flatMap_cons] at hcs
      exact (hcs.sublist (List.sublist_append_right _ _)).raise hw.le_start
    have hinside : ∀ h ∈ sideHunks all side c, h.baseStart ≤ h.baseEnd ∧
        h.baseEnd ≤ windowHi all c := fun h hmem => (mem_window hin hmem).2
    have hwhole : Apart b (windowLo all c) (sideHunks all side c ++
        cs.flatMap (sideHunks all side)) := by
      rw [List.flatMap_cons] at hcs
      refine hcs.raise (fun h hmem => ?_)
      rcases List.mem_append.mp hmem with hmem | hmem
      · exact (mem_window hin hmem).1
      · exact hle.trans (hw.le_start h hmem)
    rw [weave, ih (fun c' hc' => hsub c' (List.mem_cons_of_mem c hc')) hrest,
      sideText_eq (hsub c List.mem_cons_self) hap, List.append_assoc,
      applyWindow_append hle hinside hrest, ← applyHunks_skip hlo hwhole, List.flatMap_cons]

/-- The windows that follow some clusters start behind the hunks of these. -/
theorem Windows.split {bi : Nat} {pre post : List (List Nat)}
    (hw : Windows b all bi (pre ++ post)) : ∃ bi', bi ≤ bi' ∧ Windows b all bi' post ∧
      ∀ h ∈ pre.flatMap (sideHunks all side), h.baseStart ≤ h.baseEnd ∧ h.baseEnd ≤ bi' := by
  induction pre generalizing bi with
  | nil => exact ⟨bi, Nat.le_refl bi, hw, fun h hin => absurd hin List.not_mem_nil⟩
  | cons c pre ih =>
    cases hw with
    | cons hne hlo hle hin hw =>
      obtain ⟨bi', hbi, hpost, hpre⟩ := ih hw
      refine ⟨bi', by omega, hpost, fun h hmem => ?_⟩
      rw [List.flatMap_cons, List.mem_append] at hmem
      rcases hmem with hmem | hmem
      · obtain ⟨-, hvalid, hend⟩ := mem_window hin hmem
        exact ⟨hvalid, hend.trans hbi⟩
      · exact hpre h hmem

/-- A hunk of a side changes the window of its cluster: the side's diff has no hunks to spare. -/
theorem sideText_ne (hcl : Clustered (taggedHunks b o t) cs)
    (hc : c ∈ cs) (hne : sideHunks (taggedHunks b o t) side c ≠ []) :
    sideText b (taggedHunks b o t) side c ≠
      slice b (windowLo (taggedHunks b o t) c) (windowHi (taggedHunks b o t) c) := by
  intro heq
  have hw := hcl.windows (taggedHunks_tagged b o t)
  have hap : Apart b 0 (sideHunks (taggedHunks b o t) side
      (List.range (taggedHunks b o t).length)) := by
    rw [sideHunks_all]
    exact diffHunks_apart b _
  have hflat := flatMap_sideHunks hcl hap
  rw [sideText_eq (hcl.sublist c hc) hap] at heq
  rw [sideHunks_all] at hflat
  obtain ⟨pre, post, rfl⟩ := List.append_of_mem hc
  rw [List.flatMap_append, List.flatMap_cons] at hflat
  obtain ⟨bi, -, hwc, hpre⟩ := @Windows.split _ _ side _ _ _ hw
  cases hwc with
  | cons _ hlo hle hin hpost =>
    have hwhole := diffHunks_apart b (linesOf o t side)
    have hmid : ∀ h ∈ sideHunks (taggedHunks b o t) side c, h.baseStart ≤ h.baseEnd ∧
        h.baseEnd ≤ windowHi (taggedHunks b o t) c := fun h hmem => (mem_window hin hmem).2
    rw [← hflat] at hwhole
    have hrest := (hwhole.sublist (List.sublist_append_right _ _)).raise (fun h hmem => by
      rcases List.mem_append.mp hmem with hmem | hmem
      · exact (mem_window hin hmem).1
      · exact hle.trans (hpost.le_start h hmem))
    have hafter := (hrest.sublist (List.sublist_append_right _ _)).raise hpost.le_start
    have hsub := (List.sublist_append_right (sideHunks (taggedHunks b o t) side c)
      (post.flatMap (sideHunks (taggedHunks b o t) side))).append_left
      (pre.flatMap (sideHunks (taggedHunks b o t) side))
    have hbefore : ∀ h ∈ pre.flatMap (sideHunks (taggedHunks b o t) side),
        h.baseStart ≤ h.baseEnd ∧ h.baseEnd ≤ windowLo (taggedHunks b o t) c :=
      fun h hmem => ⟨(hpre h hmem).1, (hpre h hmem).2.trans hlo⟩
    have hsame : applyHunks b 0 (pre.flatMap (sideHunks (taggedHunks b o t) side) ++
        post.flatMap (sideHunks (taggedHunks b o t) side)) = linesOf o t side := by
      rw [← applyWindow_append (Nat.zero_le _) hbefore
          (hrest.sublist (List.sublist_append_right _ _)), applyHunks_skip hle hafter, ← heq,
        applyWindow_append hle hmid hafter, applyWindow_append (Nat.zero_le _) hbefore hrest, hflat,
        applyHunks_diffHunks]
    rw [hflat] at hsub
    have hlen := congrArg List.length ((diffHunks_minimal hsub hsame).trans hflat.symm)
    simp only [List.length_append] at hlen
    exact hne (List.length_eq_zero_iff.mp (by omega))

/-! ## The merge -/

/-- Both sides change the window, each in its own way. -/
def Diverges (b : List String) (all : List (Side × Hunk)) (c : List Nat) : Prop :=
  sideText b all .ours c ≠ slice b (windowLo all c) (windowHi all c) ∧
    sideText b all .theirs c ≠ slice b (windowLo all c) (windowHi all c) ∧
    sideText b all .ours c ≠ sideText b all .theirs c

def mergedText (b : List String) (all : List (Side × Hunk)) (c : List Nat) : List String :=
  if sideText b all .ours c = slice b (windowLo all c) (windowHi all c) then
    sideText b all .theirs c
  else sideText b all .ours c

theorem reconcile_eq (st : MergeState) (h : ¬Diverges b all c) : reconcile b all st c =
    ⟨st.out ++ slice b st.bi (windowLo all c) ++ mergedText b all c, st.conflicted,
      windowHi all c⟩ := by
  have hunfold : reconcile b all st c =
      if sideText b all .ours c = slice b (windowLo all c) (windowHi all c) then
        ⟨st.out ++ slice b st.bi (windowLo all c) ++ sideText b all .theirs c, st.conflicted,
          windowHi all c⟩
      else if sideText b all .theirs c = slice b (windowLo all c) (windowHi all c) ∨
          sideText b all .ours c = sideText b all .theirs c then
        ⟨st.out ++ slice b st.bi (windowLo all c) ++ sideText b all .ours c, st.conflicted,
          windowHi all c⟩
      else ⟨st.out ++ slice b st.bi (windowLo all c) ++ ["<<<<<<< ours"] ++
        sideText b all .ours c ++ ["======="] ++ sideText b all .theirs c ++ [">>>>>>> theirs"],
        true, windowHi all c⟩ := rfl
  rw [Diverges] at h
  rw [hunfold, mergedText]
  split_ifs with hours htheirs
  · rfl
  · rfl
  · tauto

theorem reconcile_diverges (st : MergeState) (h : Diverges b all c) :
    (reconcile b all st c).conflicted = true := by
  obtain ⟨hours, htheirs, hne⟩ := h
  change (if sideText b all .ours c = slice b (windowLo all c) (windowHi all c) then _
    else if sideText b all .theirs c = slice b (windowLo all c) (windowHi all c) ∨
      sideText b all .ours c = sideText b all .theirs c then _ else _ : MergeState).conflicted = true
  rw [if_neg hours, if_neg (not_or.mpr ⟨htheirs, hne⟩)]

theorem reconcile_conflicted (st : MergeState) : (reconcile b all st c).conflicted = true ↔
    st.conflicted = true ∨ Diverges b all c := by
  by_cases h : Diverges b all c
  · exact iff_of_true (reconcile_diverges st h) (.inr h)
  · rw [reconcile_eq st h, or_iff_left h]

theorem foldl_conflicted (st : MergeState) (cs : List (List Nat)) :
    (cs.foldl (reconcile b all) st).conflicted = true ↔
      st.conflicted = true ∨ ∃ c ∈ cs, Diverges b all c := by
  induction cs generalizing st with
  | nil => simp
  | cons c cs ih =>
    rw [List.foldl_cons, ih, reconcile_conflicted, or_assoc]
    simp

/-- Without a divergent cluster the merge weaves the texts of the clusters into the base. -/
theorem foldl_weave (st : MergeState) (h : ∀ c ∈ cs, ¬Diverges b all c) :
    (cs.foldl (reconcile b all) st).out ++
        slice b (cs.foldl (reconcile b all) st).bi b.length =
      st.out ++ weave b all (mergedText b all) st.bi cs := by
  induction cs generalizing st with
  | nil => rfl
  | cons c cs ih =>
    rw [List.foldl_cons, ih _ (fun c' hc' => h c' (List.mem_cons_of_mem c hc')),
      reconcile_eq st (h c List.mem_cons_self), weave]
    simp only [List.append_assoc]

/-! ## Whole merges -/

def mergeState (b o t : List String) : MergeState :=
  (clusterHunks (taggedHunks b o t)).foldl (reconcile b (taggedHunks b o t)) ⟨[], false, 0⟩

def mergedLines (b o t : List String) : List String :=
  (mergeState b o t).out ++ slice b (mergeState b o t).bi b.length

def joinLines (ls : List String) (trailing : Bool) : String :=
  let text := "\n".intercalate ls
  if text ≠ "" ∧ trailing then text ++ "\n" else text

def finalNewline (base ours theirs : String) : Bool :=
  if (splitLines ours).1 ≠ [] then (splitLines ours).2
  else if (splitLines theirs).1 ≠ [] then (splitLines theirs).2
  else (splitLines base).2

theorem mergeLines_eq (base ours theirs : String) : mergeLines base ours theirs =
    ⟨joinLines (mergedLines (splitLines base).1 (splitLines ours).1 (splitLines theirs).1)
      (finalNewline base ours theirs),
      (mergeState (splitLines base).1 (splitLines ours).1 (splitLines theirs).1).conflicted⟩ :=
  rfl

theorem clusterHunks_taggedHunks (b o t : List String) :
    Clustered (taggedHunks b o t) (clusterHunks (taggedHunks b o t)) :=
  clusterHunks_clustered (taggedHunks_tagged b o t)

theorem sideHunks_all_apart (b o t : List String) (side : Side) :
    Apart b 0 (sideHunks (taggedHunks b o t) side (List.range (taggedHunks b o t).length)) := by
  rw [sideHunks_all]
  exact diffHunks_apart b _

/-- The stretches between the windows and one side's texts in them are that side. -/
theorem weave_side (b o t : List String) (side : Side) :
    weave b (taggedHunks b o t) (sideText b (taggedHunks b o t) side) 0
      (clusterHunks (taggedHunks b o t)) = linesOf o t side := by
  have hcl := clusterHunks_taggedHunks b o t
  have hflat := flatMap_sideHunks hcl (sideHunks_all_apart b o t side)
  rw [weave_sideText (hcl.windows (taggedHunks_tagged b o t)) hcl.sublist
    (sideHunks_all_apart b o t side) (hflat ▸ sideHunks_all_apart b o t side), hflat,
    sideHunks_all, applyHunks_diffHunks]

theorem mergeState_conflicted (b o t : List String) : (mergeState b o t).conflicted = true ↔
    ∃ c ∈ clusterHunks (taggedHunks b o t), Diverges b (taggedHunks b o t) c := by
  rw [mergeState, foldl_conflicted]
  simp

theorem mergedLines_weave
    (h : ∀ c ∈ clusterHunks (taggedHunks b o t), ¬Diverges b (taggedHunks b o t) c) :
    mergedLines b o t = weave b (taggedHunks b o t) (mergedText b (taggedHunks b o t)) 0
      (clusterHunks (taggedHunks b o t)) := by
  rw [mergedLines, mergeState, foldl_weave _ h, List.nil_append]

/-- The clusters split the hunks of both sides and have successive windows in the base; either
side is the stretches between the windows with that side's texts in them; and a merge without
conflict takes in each window the text of every side with a hunk there. -/
theorem mergeLines_exact (b o t : List String) :
    (clusterHunks (taggedHunks b o t)).flatten.Perm (List.range (taggedHunks b o t).length) ∧
    Windows b (taggedHunks b o t) 0 (clusterHunks (taggedHunks b o t)) ∧
    weave b (taggedHunks b o t) (sideText b (taggedHunks b o t) .ours) 0
      (clusterHunks (taggedHunks b o t)) = o ∧
    weave b (taggedHunks b o t) (sideText b (taggedHunks b o t) .theirs) 0
      (clusterHunks (taggedHunks b o t)) = t ∧
    ((mergeState b o t).conflicted = false → ∃ text : List Nat → List String,
      mergedLines b o t = weave b (taggedHunks b o t) text 0 (clusterHunks (taggedHunks b o t)) ∧
      ∀ c ∈ clusterHunks (taggedHunks b o t), ∀ side, sideHunks (taggedHunks b o t) side c ≠ [] →
        text c = sideText b (taggedHunks b o t) side c) ∧
    ∀ base ours theirs : String, (splitLines base).1 = b → (splitLines ours).1 = o →
      (splitLines theirs).1 = t → mergeLines base ours theirs =
        ⟨joinLines (mergedLines b o t) (finalNewline base ours theirs),
          (mergeState b o t).conflicted⟩ := by
  have hcl := clusterHunks_taggedHunks b o t
  refine ⟨hcl.perm, hcl.windows (taggedHunks_tagged b o t), weave_side b o t .ours,
    weave_side b o t .theirs, fun hclean => ?_, ?_⟩
  · have hagree : ∀ c ∈ clusterHunks (taggedHunks b o t),
        ¬Diverges b (taggedHunks b o t) c := by
      intro c hc hdiv
      have hconf := (mergeState_conflicted b o t).mpr ⟨c, hc, hdiv⟩
      rw [hclean] at hconf
      cases hconf
    refine ⟨mergedText b (taggedHunks b o t), mergedLines_weave hagree, fun c hc side hne => ?_⟩
    have hchanged := sideText_ne hcl hc hne
    have hdiv := hagree c hc
    rw [mergedText]
    cases side with
    | ours => rw [if_neg hchanged]
    | theirs =>
      split_ifs with hours
      · rfl
      · by_contra hdiff
        exact hdiv ⟨hours, hchanged, hdiff⟩
  · rintro base ours theirs rfl rfl rfl
    exact mergeLines_eq base ours theirs

end SrcControl.Diff3
