import SrcControl.Repo.Diff3OneSided

/-!
# The merge with its sides exchanged

The hunks of the exchanged merge are the same ones under other indices and the other tag. Links,
and with them the clusters, their order and their windows, do not depend on either, and the texts
of a window trade places: the merge writes the same blocks, its conflict blocks with the halves
exchanged.
-/

namespace SrcControl.Diff3

open Relation

variable {b o t : List String} {all : List (Side × Hunk)} {side : Side} {c c' : List Nat}
  {cs : List (List Nat)}

/-! ## Blocks of the output -/

inductive Block
  | plain (lines : List String)
  | conflict (ours theirs : List String)
deriving DecidableEq, Repr

def Block.lines : Block → List String
  | .plain ls => ls
  | .conflict ours theirs =>
    ["<<<<<<< ours"] ++ ours ++ ["======="] ++ theirs ++ [">>>>>>> theirs"]

def Block.isConflict : Block → Bool
  | .plain _ => false
  | .conflict _ _ => true

def Block.exchange : Block → Block
  | .plain ls => .plain ls
  | .conflict ours theirs => .conflict theirs ours

@[simp] theorem Block.isConflict_exchange (k : Block) : k.exchange.isConflict = k.isConflict := by
  cases k <;> rfl

/-- What a cluster writes. -/
def clusterBlock (b : List String) (all : List (Side × Hunk)) (c : List Nat) : Block :=
  if sideText b all .ours c = slice b (windowLo all c) (windowHi all c) then
    .plain (sideText b all .theirs c)
  else if sideText b all .theirs c = slice b (windowLo all c) (windowHi all c) ∨
      sideText b all .ours c = sideText b all .theirs c then
    .plain (sideText b all .ours c)
  else .conflict (sideText b all .ours c) (sideText b all .theirs c)

/-- The base lines before each cluster, what the cluster writes, and the base lines at the end. -/
def blocksFrom (b : List String) (all : List (Side × Hunk)) : Nat → List (List Nat) → List Block
  | bi, [] => [.plain (slice b bi b.length)]
  | bi, c :: cs =>
    .plain (slice b bi (windowLo all c)) :: clusterBlock b all c ::
      blocksFrom b all (windowHi all c) cs

def mergeBlocks (b o t : List String) : List Block :=
  blocksFrom b (taggedHunks b o t) 0 (clusterHunks (taggedHunks b o t))

theorem reconcile_block (st : MergeState) : reconcile b all st c =
    ⟨st.out ++ slice b st.bi (windowLo all c) ++ (clusterBlock b all c).lines,
      st.conflicted || (clusterBlock b all c).isConflict, windowHi all c⟩ := by
  by_cases hdiv : Diverges b all c
  · obtain ⟨hours, htheirs, hne⟩ := hdiv
    have hblock : clusterBlock b all c =
        .conflict (sideText b all .ours c) (sideText b all .theirs c) := by
      rw [clusterBlock, if_neg hours, if_neg (not_or.mpr ⟨htheirs, hne⟩)]
    have hunfold : reconcile b all st c = ⟨st.out ++ slice b st.bi (windowLo all c) ++
        ["<<<<<<< ours"] ++ sideText b all .ours c ++ ["======="] ++ sideText b all .theirs c ++
        [">>>>>>> theirs"], true, windowHi all c⟩ := by
      change (if sideText b all .ours c = slice b (windowLo all c) (windowHi all c) then _
        else if sideText b all .theirs c = slice b (windowLo all c) (windowHi all c) ∨
          sideText b all .ours c = sideText b all .theirs c then _ else _ : MergeState) = _
      rw [if_neg hours, if_neg (not_or.mpr ⟨htheirs, hne⟩)]
      rfl
    rw [hunfold, hblock, Block.isConflict, Bool.or_true, Block.lines]
    simp only [List.append_assoc]
  · have hblock : clusterBlock b all c = .plain (mergedText b all c) := by
      rw [Diverges] at hdiv
      rw [clusterBlock, mergedText]
      split_ifs with hours htheirs
      · rfl
      · rfl
      · exact absurd ⟨hours, fun h => htheirs (.inl h), fun h => htheirs (.inr h)⟩ hdiv
    rw [reconcile_eq st hdiv, hblock, Block.isConflict, Bool.or_false, Block.lines]

theorem foldl_blocks (st : MergeState) (cs : List (List Nat)) :
    (cs.foldl (reconcile b all) st).out ++
        slice b (cs.foldl (reconcile b all) st).bi b.length =
      st.out ++ (blocksFrom b all st.bi cs).flatMap Block.lines ∧
    (cs.foldl (reconcile b all) st).conflicted =
      (st.conflicted || (blocksFrom b all st.bi cs).any Block.isConflict) := by
  induction cs generalizing st with
  | nil => simp [blocksFrom, Block.lines, Block.isConflict]
  | cons c cs ih =>
    obtain ⟨hout, hconf⟩ := ih (reconcile b all st c)
    rw [List.foldl_cons, hout, hconf, reconcile_block, blocksFrom]
    simp [Block.lines, Block.isConflict, Bool.or_assoc]

theorem mergeBlocks_lines (b o t : List String) :
    mergedLines b o t = (mergeBlocks b o t).flatMap Block.lines := by
  have hfold := (@foldl_blocks b (taggedHunks b o t) ⟨[], false, 0⟩
    (clusterHunks (taggedHunks b o t))).1
  rwa [List.nil_append] at hfold

theorem mergeBlocks_conflicted (b o t : List String) :
    (mergeState b o t).conflicted = (mergeBlocks b o t).any Block.isConflict := by
  have hfold := (@foldl_blocks b (taggedHunks b o t) ⟨[], false, 0⟩
    (clusterHunks (taggedHunks b o t))).2
  rwa [Bool.false_or] at hfold

/-! ## The hunks under other indices -/

def Side.other : Side → Side
  | .ours => .theirs
  | .theirs => .ours

theorem Side.other_ne {s s' : Side} : s.other ≠ s'.other ↔ s ≠ s' := by
  cases s <;> cases s' <;> decide

/-- Where entry `i` of a list of `p` and then `q` entries stands once the parts trade places. -/
def traded (p q i : Nat) : Nat := if i < p then q + i else i - p

theorem traded_traded {p q i : Nat} (hi : i < p + q) : traded q p (traded p q i) = i := by
  unfold traded
  split_ifs <;> omega

theorem getElem?_traded {α : Type} (xs ys : List α) {i : Nat} (hi : i < xs.length + ys.length) :
    (ys ++ xs)[traded xs.length ys.length i]? = (xs ++ ys)[i]? := by
  unfold traded
  split_ifs with hlt
  · rw [List.getElem?_append_right (Nat.le_add_right _ _), List.getElem?_append_left hlt,
      Nat.add_sub_cancel_left]
  · have hle : xs.length ≤ i := Nat.le_of_not_lt hlt
    rw [List.getElem?_append_right hle, List.getElem?_append_left (by omega)]

/-- The index in the exchanged merge of hunk `i`. -/
def across (b o t : List String) (i : Nat) : Nat :=
  traded (diffHunks b o).length (diffHunks b t).length i

theorem length_taggedHunks (b o t : List String) :
    (taggedHunks b o t).length = (diffHunks b o).length + (diffHunks b t).length := by
  rw [taggedHunks, List.length_append, List.length_map, List.length_map]

theorem across_across {i : Nat} (hi : i < (taggedHunks b o t).length) :
    across b t o (across b o t i) = i :=
  traded_traded (length_taggedHunks b o t ▸ hi)

theorem getElem?_across {i : Nat} {a : Side × Hunk} (ha : (taggedHunks b o t)[i]? = some a) :
    (taggedHunks b t o)[across b o t i]? = some (a.1.other, a.2) := by
  obtain ⟨hi, -⟩ := List.getElem?_eq_some_iff.mp ha
  have hmap : taggedHunks b t o =
      ((diffHunks b t).map (fun h => (Side.theirs, h)) ++
        (diffHunks b o).map (fun h => (Side.ours, h))).map (fun a => (a.1.other, a.2)) := by
    rw [taggedHunks, List.map_append, List.map_map, List.map_map]
    rfl
  rw [length_taggedHunks] at hi
  have hget := @getElem?_traded _ ((diffHunks b o).map (fun h => (Side.ours, h)))
    ((diffHunks b t).map (fun h => (Side.theirs, h))) i (by rwa [List.length_map, List.length_map])
  rw [List.length_map, List.length_map] at hget
  rw [hmap, List.getElem?_map, across, hget, ← taggedHunks, ha]
  rfl

theorem across_lt {i : Nat} (hi : i < (taggedHunks b o t).length) :
    across b o t i < (taggedHunks b t o).length := by
  have hget := getElem?_across (List.getElem?_eq_getElem hi)
  exact (List.getElem?_eq_some_iff.mp hget).1

theorem Linked.across {i j : Nat} (hl : Linked (taggedHunks b o t) i j) :
    Linked (taggedHunks b t o) (across b o t i) (across b o t j) := by
  obtain ⟨a, a', ha, ha', hne, hint⟩ := hl
  exact ⟨_, _, getElem?_across ha, getElem?_across ha', Side.other_ne.mpr hne, hint⟩

theorem eqvGen_across {i j : Nat} (hl : EqvGen (Linked (taggedHunks b o t)) i j) :
    EqvGen (Linked (taggedHunks b t o)) (across b o t i) (across b o t j) := by
  induction hl with
  | rel i j hl => exact .rel _ _ hl.across
  | refl i => exact .refl _
  | symm i j _ ih => exact .symm _ _ ih
  | trans i j k _ _ ih ih' => exact .trans _ _ _ ih ih'

theorem BeforeAt.across {i j : Nat} (hb : BeforeAt (taggedHunks b o t) i j) :
    BeforeAt (taggedHunks b t o) (across b o t i) (across b o t j) := by
  obtain ⟨a, a', ha, ha', hbefore⟩ := hb
  exact ⟨_, _, getElem?_across ha, getElem?_across ha', hbefore⟩

theorem Tagged.not_beforeAt (ht : Tagged b all) {i j : Nat} (hb : BeforeAt all i j) :
    ¬BeforeAt all j i := by
  rintro ⟨a', a, ha', ha, hbefore'⟩
  obtain ⟨e, e', he, he', hbefore⟩ := hb
  obtain rfl := Option.some.inj (ha.symm.trans he)
  obtain rfl := Option.some.inj (ha'.symm.trans he')
  have hle := (ht.valid a (List.mem_of_getElem? ha)).1
  have hle' := (ht.valid a' (List.mem_of_getElem? ha')).1
  exact hbefore.asymm hle hle' hbefore'

/-! ## The clusters trade indices -/

/-- The two clusters hold the same hunks. -/
structure Twin (b o t : List String) (c c' : List Nat) : Prop where
  mem : c ∈ clusterHunks (taggedHunks b o t)
  mem' : c' ∈ clusterHunks (taggedHunks b t o)
  across : ∀ i ∈ c, across b o t i ∈ c'
  across' : ∀ i ∈ c', Diff3.across b t o i ∈ c

theorem Twin.symm (h : Twin b o t c c') : Twin b t o c' c := ⟨h.mem', h.mem, h.across', h.across⟩

theorem Clustered.mem_of_eqvGen (hcl : Clustered all cs) (hc : c ∈ cs) {i j : Nat}
    (hl : EqvGen (Linked all) i j) : i ∈ c ↔ j ∈ c := by
  induction hl with
  | rel i j hl => exact ⟨hcl.closed c hc hl, hcl.closed c hc hl.symm⟩
  | refl i => exact Iff.rfl
  | symm i j _ ih => exact ih.symm
  | trans i j k _ _ ih ih' => exact ih.trans ih'

theorem exists_twin (hc : c ∈ clusterHunks (taggedHunks b o t)) :
    ∃ c' ∈ clusterHunks (taggedHunks b t o), Twin b o t c c' := by
  have hcl := clusterHunks_taggedHunks b o t
  have hcl' := clusterHunks_taggedHunks b t o
  obtain ⟨i, hi⟩ := List.exists_mem_of_ne_nil c (hcl.nonempty c hc)
  have hlt := hcl.lt c hc i hi
  obtain ⟨c', hc', hi'⟩ :=
    List.mem_flatten.mp (hcl'.perm.mem_iff.mpr (List.mem_range.mpr (across_lt hlt)))
  refine ⟨c', hc', hc, hc', fun j hj => ?_, fun j hj => ?_⟩
  · exact (hcl'.mem_of_eqvGen hc' (eqvGen_across (hcl.connected c hc i hi j hj))).mp hi'
  · have hback := eqvGen_across (hcl'.connected c' hc' _ hi' j hj)
    rw [across_across hlt] at hback
    exact (hcl.mem_of_eqvGen hc hback).mp hi

theorem Twin.not_nil (h : Twin b o t c c') : c ≠ [] :=
  (clusterHunks_taggedHunks b o t).nonempty c h.mem

theorem twin_matches (b o t : List String) : OrderedClasses.Matches
    (fun c d => ∀ i ∈ c, ∀ j ∈ d, BeforeAt (taggedHunks b o t) i j)
    (fun c d => ∀ i ∈ c, ∀ j ∈ d, BeforeAt (taggedHunks b t o) i j) (Twin b o t) := by
  have hself : ∀ {o t c d c' : List _}, Twin b o t c c' → Twin b o t d c' →
      ¬∀ i ∈ c, ∀ j ∈ d, BeforeAt (taggedHunks b o t) i j := by
    intro o t c d c' h h' hall
    obtain ⟨i, hi⟩ := List.exists_mem_of_ne_nil c h.not_nil
    have hmem := h'.across' _ (h.across i hi)
    rw [across_across ((clusterHunks_taggedHunks b o t).lt c h.mem i hi)] at hmem
    have hbefore := hall i hi i hmem
    exact (taggedHunks_tagged b o t).not_beforeAt hbefore hbefore
  constructor
  · intro c d c' d' h h' hall
    refine ⟨?_, fun hall' => ?_⟩
    · rintro rfl
      exact hself h h' hall
    · obtain ⟨i, hi⟩ := List.exists_mem_of_ne_nil c h.not_nil
      obtain ⟨j, hj⟩ := List.exists_mem_of_ne_nil d h'.not_nil
      exact (taggedHunks_tagged b t o).not_beforeAt (hall i hi j hj).across
        (hall' _ (h'.across j hj) _ (h.across i hi))
  · rintro c d c' d' h h' hall rfl
    exact hself h.symm h'.symm hall

theorem clusterHunks_twins (b o t : List String) : List.Forall₂ (Twin b o t)
    (clusterHunks (taggedHunks b o t)) (clusterHunks (taggedHunks b t o)) := by
  refine (twin_matches b o t).forall₂ (clusterHunks_taggedHunks b o t).ordered
    (clusterHunks_taggedHunks b t o).ordered (fun c hc => ?_) (fun c' hc' => ?_)
  · exact exists_twin hc
  · obtain ⟨c, hc, htwin⟩ := exists_twin hc'
    exact ⟨c, hc, htwin.symm⟩

/-! ## Windows, texts and blocks -/

theorem Twin.windowLo_le (h : Twin b o t c c') :
    windowLo (taggedHunks b t o) c' ≤ windowLo (taggedHunks b o t) c := by
  have hcl := clusterHunks_taggedHunks b o t
  obtain ⟨i, hi, a, ha, hstart⟩ := earliest_mem h.not_nil (hcl.lt c h.mem)
  rw [windowLo_eq (taggedHunks b o t), hstart]
  exact @Diff3.windowLo_le _ _ _ (a.1.other, a.2) (h.across i hi) (getElem?_across ha)

theorem Twin.windowLo_eq (h : Twin b o t c c') :
    windowLo (taggedHunks b t o) c' = windowLo (taggedHunks b o t) c :=
  Nat.le_antisymm h.windowLo_le h.symm.windowLo_le

theorem Twin.le_windowHi (h : Twin b o t c c') :
    windowHi (taggedHunks b o t) c ≤ windowHi (taggedHunks b t o) c' := by
  have hcl := clusterHunks_taggedHunks b o t
  obtain ⟨i, hi, a, ha, hend⟩ := windowHi_mem h.not_nil (hcl.lt c h.mem)
  rw [hend]
  exact @Diff3.le_windowHi _ _ _ (a.1.other, a.2) (h.across i hi) (getElem?_across ha)

theorem Twin.windowHi_eq (h : Twin b o t c c') :
    windowHi (taggedHunks b t o) c' = windowHi (taggedHunks b o t) c :=
  Nat.le_antisymm h.symm.le_windowHi h.le_windowHi

theorem Twin.mem_sideHunks (h : Twin b o t c c') {k : Hunk}
    (hk : k ∈ sideHunks (taggedHunks b o t) side c) :
    k ∈ sideHunks (taggedHunks b t o) side.other c' := by
  obtain ⟨i, hi, hget⟩ := Diff3.mem_sideHunks.mp hk
  exact Diff3.mem_sideHunks.mpr ⟨_, h.across i hi, getElem?_across hget⟩

theorem Twin.sideHunks_eq (h : Twin b o t c c') :
    sideHunks (taggedHunks b t o) side.other c' = sideHunks (taggedHunks b o t) side c := by
  have hap : ∀ {o t : List String} {c : List Nat} (side : Side),
      c ∈ clusterHunks (taggedHunks b o t) → Apart b 0 (sideHunks (taggedHunks b o t) side c) :=
    fun side hc => (sideHunks_all_apart b _ _ side).sublist
      (sideHunks_sublist ((clusterHunks_taggedHunks b _ _).sublist _ hc))
  refine (hap _ h.mem').eq_of_mem (hap _ h.mem) (fun k => ⟨fun hk => ?_, h.mem_sideHunks⟩)
  have hback := h.symm.mem_sideHunks hk
  cases side <;> exact hback

theorem Twin.sideText_eq (h : Twin b o t c c') (side : Side) :
    sideText b (taggedHunks b t o) side.other c' = sideText b (taggedHunks b o t) side c := by
  rw [Diff3.sideText_eq ((clusterHunks_taggedHunks b t o).sublist c' h.mem')
      (sideHunks_all_apart b t o side.other),
    Diff3.sideText_eq ((clusterHunks_taggedHunks b o t).sublist c h.mem)
      (sideHunks_all_apart b o t side),
    h.windowLo_eq, h.windowHi_eq, h.sideHunks_eq]

/-- Where one side left the window alone, the other's text comes out, whichever is asked first. -/
theorem Twin.clusterBlock_eq (h : Twin b o t c c') :
    clusterBlock b (taggedHunks b t o) c' = (clusterBlock b (taggedHunks b o t) c).exchange := by
  have hours : sideText b (taggedHunks b t o) .ours c' = sideText b (taggedHunks b o t) .theirs c :=
    h.sideText_eq .theirs
  have htheirs : sideText b (taggedHunks b t o) .theirs c' = sideText b (taggedHunks b o t) .ours c :=
    h.sideText_eq .ours
  unfold clusterBlock
  rw [hours, htheirs, h.windowLo_eq, h.windowHi_eq]
  split_ifs <;> simp_all [Block.exchange]

theorem blocksFrom_twins {cs' : List (List Nat)} (bi : Nat)
    (h : List.Forall₂ (Twin b o t) cs cs') : blocksFrom b (taggedHunks b t o) bi cs' =
      (blocksFrom b (taggedHunks b o t) bi cs).map Block.exchange := by
  induction h generalizing bi with
  | nil => rfl
  | cons htwin _ ih =>
    rw [blocksFrom, blocksFrom, List.map_cons, List.map_cons, htwin.windowLo_eq,
      htwin.windowHi_eq, htwin.clusterBlock_eq, ih]
    rfl

theorem mergeBlocks_exchange (b o t : List String) :
    mergeBlocks b t o = (mergeBlocks b o t).map Block.exchange :=
  blocksFrom_twins 0 (clusterHunks_twins b o t)

theorem lines_exchange_of_clean {ks : List Block} (h : ks.any Block.isConflict = false) :
    (ks.map Block.exchange).flatMap Block.lines = ks.flatMap Block.lines := by
  rw [List.flatMap_map]
  refine List.flatMap_congr (fun k hk => ?_)
  cases k with
  | plain ls => rfl
  | conflict ours theirs => exact absurd rfl (List.any_eq_false.mp h _ hk)

/-- The lines of the output, before the rule for the newline at the end. -/
def outLines (base ours theirs : String) : List String :=
  mergedLines (splitLines base).1 (splitLines ours).1 (splitLines theirs).1

def outBlocks (base ours theirs : String) : List Block :=
  mergeBlocks (splitLines base).1 (splitLines ours).1 (splitLines theirs).1

theorem outBlocks_conflicted (base ours theirs : String) :
    (mergeLines base ours theirs).conflicted =
      (outBlocks base ours theirs).any Block.isConflict := by
  rw [mergeLines_eq]
  exact mergeBlocks_conflicted _ _ _

theorem outLines_text (base ours theirs : String) : (mergeLines base ours theirs).text =
    joinLines (outLines base ours theirs) (finalNewline base ours theirs) := by
  rw [mergeLines_eq, outLines]

theorem outBlocks_exchange (base ours theirs : String) :
    outBlocks base theirs ours = (outBlocks base ours theirs).map Block.exchange :=
  mergeBlocks_exchange _ _ _

theorem outLines_exchange (base ours theirs : String) : outLines base theirs ours =
    ((outBlocks base ours theirs).map Block.exchange).flatMap Block.lines := by
  rw [← outBlocks_exchange]
  exact mergeBlocks_lines _ _ _

/-- Both orders of the sides write the same blocks, with the halves of each conflict block
exchanged: they conflict together, and where they do not their lines are the same. -/
theorem mergeLines_exchange (base ours theirs : String) :
    (mergeLines base theirs ours).conflicted = (mergeLines base ours theirs).conflicted ∧
    ((mergeLines base ours theirs).conflicted = false →
      outLines base theirs ours = outLines base ours theirs) ∧
    outLines base ours theirs = (outBlocks base ours theirs).flatMap Block.lines ∧
    outLines base theirs ours =
      ((outBlocks base ours theirs).map Block.exchange).flatMap Block.lines ∧
    (mergeLines base ours theirs).conflicted =
      (outBlocks base ours theirs).any Block.isConflict ∧
    ∀ o t, (mergeLines base o t).text = joinLines (outLines base o t) (finalNewline base o t) := by
  have hlines : outLines base ours theirs = (outBlocks base ours theirs).flatMap Block.lines :=
    mergeBlocks_lines _ _ _
  have hconf := outBlocks_conflicted base ours theirs
  refine ⟨?_, fun hclean => ?_, hlines, outLines_exchange base ours theirs, hconf,
    outLines_text base⟩
  · rw [outBlocks_conflicted, outBlocks_exchange, hconf]
    simp [List.any_map, Function.comp_def]
  · rw [outLines_exchange, hlines, lines_exchange_of_clean (hconf.symm.trans hclean)]

end SrcControl.Diff3
