import SrcControl.Repo.MergeTree

/-!
# Regions of a tree merge

The walk of `merge_trees` divides the paths below a node into those it enumerates,
those below a subtree it carries, and those that the merge deletes. Each visited
node accounts for its region; regions of different names are put together.
-/

namespace SrcControl.MergeTree

open Merge SlashPath TreeEntries

/-- The three flattened sides of one merge, on a full store of trees at most `depth` deep. -/
structure Scene (crypto : PathCrypto) where
  store : Store
  depth : Nat
  prots : List Protection
  identity : Option crypto.SecretKey
  bF : FileMap
  oF : FileMap
  tF : FileMap
  full : ∀ files, (files = bF ∨ files = oF ∨ files = tF) → ∀ (p : String) fe, files[p]? = some fe →
    (∃ bytes, store.blobBytes fe.id = .ok bytes) ∧ ValidPerms fe.perms
  same : ∀ files files', (files = bF ∨ files = oF ∨ files = tF) →
    (files' = bF ∨ files' = oF ∨ files' = tF) → ∀ (p q : String) x y, files[p]? = some x →
    files'[q]? = some y → x.id = y.id → x.perms = y.perms

variable {crypto : PathCrypto}

namespace Scene

variable (sc : Scene crypto)

/-- The path's three versions. -/
def at_ (p : String) : Three FileEntry := ⟨sc.bF[p]?, sc.oF[p]?, sc.tF[p]?⟩

/-- What the path alone resolves to. -/
def res (p : String) : Except Error MergeAcc :=
  delta (mergePath crypto sc.store p (sc.at_ p).b (sc.at_ p).o (sc.at_ p).t sc.prots sc.identity)

/-- Some side has a leaf at these components. -/
def Occupied (l : List String) : Prop :=
  (∀ c ∈ l, IsName c) ∧ ∃ fe, sc.bF[ofNames l]? = some fe ∨ sc.oF[ofNames l]? = some fe ∨
    sc.tF[ofNames l]? = some fe

theorem at_cases {p : String} {x : FileEntry}
    (h : x ∈ (sc.at_ p).b ∨ x ∈ (sc.at_ p).o ∨ x ∈ (sc.at_ p).t) :
    ∃ files, (files = sc.bF ∨ files = sc.oF ∨ files = sc.tF) ∧ files[p]? = some x := by
  rcases h with h | h | h
  · exact ⟨_, .inl rfl, h⟩
  · exact ⟨_, .inr (.inl rfl), h⟩
  · exact ⟨_, .inr (.inr rfl), h⟩

theorem hasBlob {p : String} {e : Option FileEntry}
    (h : ∀ x ∈ e, x ∈ (sc.at_ p).b ∨ x ∈ (sc.at_ p).o ∨ x ∈ (sc.at_ p).t) :
    HasBlob sc.store e := by
  intro x hx
  obtain ⟨files, hf, hp⟩ := sc.at_cases (h x hx)
  exact (sc.full files hf p x hp).1

theorem settled {p : String} {r : Option FileEntry}
    (h : Agrees (sc.at_ p).b (sc.at_ p).o (sc.at_ p).t r) :
    Settled sc.store p r (mergePath crypto sc.store p (sc.at_ p).b (sc.at_ p).o (sc.at_ p).t
      sc.prots sc.identity) := by
  have hr : ∀ x ∈ r, x ∈ (sc.at_ p).b ∨ x ∈ (sc.at_ p).o ∨ x ∈ (sc.at_ p).t := by
    intro x hx
    rcases h with ⟨_, rfl⟩ | ⟨_, rfl⟩ | ⟨_, rfl⟩
    · exact .inr (.inl hx)
    · exact .inr (.inl hx)
    · exact .inr (.inr hx)
  refine mergePath_settled h (sc.hasBlob hr) ?_ ?_
  · intro x hx
    obtain ⟨files, hf, hp⟩ := sc.at_cases (hr x hx)
    exact (sc.full files hf p x hp).2
  · intro x y hx hy hid
    obtain ⟨files, hf, hp⟩ := sc.at_cases hx
    obtain ⟨files', hf', hp'⟩ := sc.at_cases hy
    exact sc.same files files' hf hf' p p x y hp hp' hid

theorem filesAt (p : String) : Keeps (FilesAt p) Refusal
    (mergePath crypto sc.store p (sc.at_ p).b (sc.at_ p).o (sc.at_ p).t sc.prots sc.identity) :=
  mergePath_filesAt (sc.hasBlob (fun _ h => .inl h)) (sc.hasBlob (fun _ h => .inr (.inl h)))
    (sc.hasBlob (fun _ h => .inr (.inr h)))

theorem res_files {p : String} {d : MergeAcc} (h : sc.res p = .ok d) {f : MergedFile}
    (hf : f ∈ d.files) : f.path = p := by
  have hk := sc.filesAt p {} (by simp [FilesAt])
  unfold res delta at h
  split at h
  · next hrun =>
    rw [hrun] at hk
    cases h
    exact hk f hf
  · cases h

theorem res_refusal {p : String} {e : Error} (h : sc.res p = .error e) : Refusal e := by
  have hk := sc.filesAt p {} (by simp [FilesAt])
  unfold res delta at h
  split at h
  · cases h
  · next hrun =>
    rw [hrun] at hk
    cases h
    exact hk

/-- Visiting a leaf adds what its path resolves to, and asks for nothing. -/
theorem visitLeaf_run (ctx : Context crypto) (hp : ctx.prots = sc.prots)
    (hi : ctx.identity = sc.identity) (p : String) (w : Walk) :
    (∃ d, sc.res p = .ok d ∧ visitLeaf ctx sc.store p (sc.at_ p) w =
      .ok { w with acc := MergeAcc.append w.acc d }) ∨
    ∃ e, sc.res p = .error e ∧ visitLeaf ctx sc.store p (sc.at_ p) w = .error e := by
  unfold visitLeaf
  rw [hp, hi]
  rcases mergePath_appendOnly.run w.acc with ⟨d, hd, hrun⟩ | ⟨e, acc', hd, hrun⟩
  · exact .inl ⟨d, hd, by rw [hrun]⟩
  · refine .inr ⟨e, hd, ?_⟩
    rw [hrun]
    have hpres := sc.res_refusal hd
    split
    · next heq => cases heq
    · next heq =>
      cases heq
      exact hpres.elim
    · next heq =>
      cases heq
      rfl

end Scene

/-- `R` is accounted for: every occupied path of `R` is enumerated, lies below a carried
subtree whose leaves the merge takes verbatim, or is deleted by the merge. -/
structure Region (sc : Scene crypto) (R E : List String → Prop)
    (C : List (List String × TreeEntry)) : Prop where
  enumerated : ∀ l, E l → R l ∧ sc.Occupied l
  carriedNames : ∀ c ∈ C, ∀ x ∈ c.1, IsName x
  carriedIn : ∀ c ∈ C, ∀ ds, R (c.1 ++ ds)
  carriedFull : ∀ c ∈ C, Named sc.store c.2.id ∧ FullAt sc.store sc.depth c.2.id
  taken : ∀ c ∈ C, ∀ ds, (∀ d ∈ ds, IsName d) → ∃ r,
    Agrees (sc.at_ (ofNames (c.1 ++ ds))).b (sc.at_ (ofNames (c.1 ++ ds))).o
      (sc.at_ (ofNames (c.1 ++ ds))).t r ∧ ∀ fe, r = some fe ↔ Leaf sc.store c.2.id ds fe
  cover : ∀ l, R l → sc.Occupied l → E l ∨ (∃ c ∈ C, c.1 <+: l) ∨
    Agrees (sc.at_ (ofNames l)).b (sc.at_ (ofNames l)).o (sc.at_ (ofNames l)).t none
  apart : ∀ l, E l → ∀ c ∈ C, ¬ c.1 <+: l ∧ ¬ l <+: c.1
  pairwise : C.Pairwise (fun c d => ¬ c.1 <+: d.1 ∧ ¬ d.1 <+: c.1)

/-- No path of one lies at or below a path of the other. -/
def Apart (R R' : List String → Prop) : Prop := ∀ l m, R l → R' m → ¬ l <+: m ∧ ¬ m <+: l

namespace Region

variable {sc : Scene crypto} {R R' E E' : List String → Prop}
  {C C' : List (List String × TreeEntry)}

theorem empty : Region sc (fun _ => False) (fun _ => False) [] where
  enumerated _ h := h.elim
  carriedNames := by simp
  carriedIn := by simp
  carriedFull := by simp
  taken := by simp
  cover _ h := h.elim
  apart _ h := h.elim
  pairwise := .nil

theorem carried_mem (h : Region sc R E C) {c : List String × TreeEntry} (hc : c ∈ C) : R c.1 := by
  have := h.carriedIn c hc []
  rwa [List.append_nil] at this

theorem union (h : Region sc R E C) (h' : Region sc R' E' C') (ha : Apart R R') :
    Region sc (fun l => R l ∨ R' l) (fun l => E l ∨ E' l) (C ++ C') where
  enumerated := by
    rintro l (hl | hl)
    · exact ⟨.inl (h.enumerated l hl).1, (h.enumerated l hl).2⟩
    · exact ⟨.inr (h'.enumerated l hl).1, (h'.enumerated l hl).2⟩
  carriedNames c hc := by
    rcases List.mem_append.mp hc with hc | hc
    · exact h.carriedNames c hc
    · exact h'.carriedNames c hc
  carriedIn c hc ds := by
    rcases List.mem_append.mp hc with hc | hc
    · exact .inl (h.carriedIn c hc ds)
    · exact .inr (h'.carriedIn c hc ds)
  carriedFull c hc := by
    rcases List.mem_append.mp hc with hc | hc
    · exact h.carriedFull c hc
    · exact h'.carriedFull c hc
  taken c hc := by
    rcases List.mem_append.mp hc with hc | hc
    · exact h.taken c hc
    · exact h'.taken c hc
  cover := by
    rintro l (hl | hl) ho
    · rcases h.cover l hl ho with he | ⟨c, hc, hp⟩ | hd
      · exact .inl (.inl he)
      · exact .inr (.inl ⟨c, List.mem_append_left _ hc, hp⟩)
      · exact .inr (.inr hd)
    · rcases h'.cover l hl ho with he | ⟨c, hc, hp⟩ | hd
      · exact .inl (.inr he)
      · exact .inr (.inl ⟨c, List.mem_append_right _ hc, hp⟩)
      · exact .inr (.inr hd)
  apart := by
    rintro l (hl | hl) c hc <;> rcases List.mem_append.mp hc with hc | hc
    · exact h.apart l hl c hc
    · exact (ha l c.1 (h.enumerated l hl).1 (h'.carried_mem hc)).symm
    · exact ha c.1 l (h.carried_mem hc) (h'.enumerated l hl).1
    · exact h'.apart l hl c hc
  pairwise := List.pairwise_append.mpr ⟨h.pairwise, h'.pairwise,
    fun c hc d hd => ha c.1 d.1 (h.carried_mem hc) (h'.carried_mem hd)⟩

theorem widen (h : Region sc R E C) (hR : ∀ l, R l → R' l)
    (ho : ∀ l, R' l → sc.Occupied l → R l) : Region sc R' E C where
  enumerated l hl := ⟨hR l (h.enumerated l hl).1, (h.enumerated l hl).2⟩
  carriedNames := h.carriedNames
  carriedIn c hc ds := hR _ (h.carriedIn c hc ds)
  carriedFull := h.carriedFull
  taken := h.taken
  cover l hl hocc := h.cover l (ho l hl hocc) hocc
  apart := h.apart
  pairwise := h.pairwise

end Region

/-- From `w` the walk reached `w'`, accounting for `R`. -/
structure Walked (sc : Scene crypto) (S : String → Prop) (R E : List String → Prop)
    (C : List (List String × TreeEntry)) (w w' : Walk) : Prop where
  region : Region sc R E C
  collected : Collected sc.res (fun p => S p ∨ ∃ l, E l ∧ p = ofNames l) w'.acc
  carried : w'.carried = w.carried ++ C.map (fun c => (ofNames c.1, c.2))
  carriedRoot : w'.carriedRoot = w.carriedRoot
  needs : w'.needs = w.needs

/-- A step over `R` either accounts for it or fails as one of its paths does. -/
def Outcome (sc : Scene crypto) (R : List String → Prop) (w : Walk) (out : Except Error Walk) :
    Prop :=
  ∀ S, Collected sc.res S w.acc →
    (∃ w' E C, out = .ok w' ∧ Walked sc S R E C w w') ∨
    ∃ e l, out = .error e ∧ sc.Occupied l ∧ sc.res (ofNames l) = .error e

namespace Outcome

variable {sc : Scene crypto} {R R' : List String → Prop} {w : Walk} {out : Except Error Walk}

theorem widen (h : Outcome sc R w out) (hR : ∀ l, R l → R' l)
    (ho : ∀ l, R' l → sc.Occupied l → R l) : Outcome sc R' w out := by
  intro S hS
  rcases h S hS with ⟨w', E, C, hok, hw⟩ | herr
  · exact .inl ⟨w', E, C, hok, ⟨hw.region.widen hR ho, hw.collected, hw.carried,
      hw.carriedRoot, hw.needs⟩⟩
  · exact .inr herr

/-- Steps over regions that lie apart account for their union. -/
theorem foldlM {α : Type} (step : Walk → α → Except Error Walk) (R : α → List String → Prop)
    (xs : List α) (hstep : ∀ x ∈ xs, ∀ w, Outcome sc (R x) w (step w x))
    (hap : xs.Pairwise (fun x y => Apart (R x) (R y))) (w : Walk) :
    Outcome sc (fun l => ∃ x ∈ xs, R x l) w (xs.foldlM step w) := by
  induction xs generalizing w with
  | nil =>
    intro S hS
    refine .inl ⟨w, fun _ => False, [], rfl, ⟨Region.empty.widen (fun _ h => h.elim) ?_, ?_,
      by simp, rfl, rfl⟩⟩
    · rintro l ⟨x, hx, _⟩
      cases hx
    · exact hS.congr (by simp)
  | cons x xs ih =>
    intro S hS
    rw [List.pairwise_cons] at hap
    rcases hstep x (by simp) w S hS with ⟨w₁, E₁, C₁, hok₁, hw₁⟩ | ⟨e, l, herr, hl⟩
    · rcases ih (fun y hy => hstep y (by simp [hy])) hap.2 w₁ _ hw₁.collected with
        ⟨w₂, E₂, C₂, hok₂, hw₂⟩ | ⟨e, l, herr, hl⟩
      · refine .inl ⟨w₂, fun l => E₁ l ∨ E₂ l, C₁ ++ C₂, ?_, ?_⟩
        · rw [List.foldlM_cons, hok₁]
          exact hok₂
        · refine ⟨(hw₁.region.union hw₂.region ?_).widen ?_ ?_, ?_, ?_, ?_, ?_⟩
          · rintro l m hl ⟨y, hy, hm⟩
            exact hap.1 y hy l m hl hm
          · rintro l (hl | ⟨y, hy, hl⟩)
            · exact ⟨x, by simp, hl⟩
            · exact ⟨y, by simp [hy], hl⟩
          · rintro l ⟨y, hy, hl⟩ _
            rcases List.mem_cons.mp hy with rfl | hy
            · exact .inl hl
            · exact .inr ⟨y, hy, hl⟩
          · refine hw₂.collected.congr (fun p => ?_)
            simp only [or_and_right, exists_or, or_assoc]
          · rw [hw₂.carried, hw₁.carried, List.map_append, List.append_assoc]
          · rw [hw₂.carriedRoot, hw₁.carriedRoot]
          · rw [hw₂.needs, hw₁.needs]
      · refine .inr ⟨e, l, ?_, hl⟩
        rw [List.foldlM_cons, hok₁]
        exact herr
    · refine .inr ⟨e, l, ?_, hl⟩
      rw [List.foldlM_cons, herr]
      rfl

/-- Visiting leaves one after the other collects them and carries nothing. -/
theorem leaves (ctx : Context crypto) (hp : ctx.prots = sc.prots)
    (hi : ctx.identity = sc.identity) (ps : List String) (w : Walk)
    (hps : ∀ p, p ∈ ps ↔ ∃ l, R l ∧ sc.Occupied l ∧ p = ofNames l) :
    Outcome sc R w (ps.foldlM (fun w p => visitLeaf ctx sc.store p (sc.at_ p) w) w) := by
  intro S hS
  have hrun : ∀ qs : List String, ∀ w S, Collected sc.res S w.acc →
      (∃ acc, qs.foldlM (fun w p => visitLeaf ctx sc.store p (sc.at_ p) w) w =
          Except.ok { w with acc := acc } ∧ Collected sc.res (fun p => S p ∨ p ∈ qs) acc) ∨
        ∃ e p, qs.foldlM (fun w p => visitLeaf ctx sc.store p (sc.at_ p) w) w = .error e ∧
          p ∈ qs ∧ sc.res p = .error e := by
    intro qs
    induction qs with
    | nil => exact fun w S hS => .inl ⟨w.acc, rfl, hS.congr (by simp)⟩
    | cons q qs ih =>
      intro w S hS
      rcases sc.visitLeaf_run ctx hp hi q w with ⟨d, hd, hq⟩ | ⟨e, hd, hq⟩
      · rcases ih { w with acc := MergeAcc.append w.acc d } _ (hS.add hd) with
          ⟨acc, hok, hc⟩ | ⟨e, p, herr, hm, hr⟩
        · refine .inl ⟨acc, ?_, hc.congr (by simp [or_assoc])⟩
          rw [List.foldlM_cons, hq]
          exact hok
        · refine .inr ⟨e, p, ?_, by simp [hm], hr⟩
          rw [List.foldlM_cons, hq]
          exact herr
      · refine .inr ⟨e, q, ?_, by simp, hd⟩
        rw [List.foldlM_cons, hq]
        rfl
  rcases hrun ps w S hS with ⟨acc, hok, hc⟩ | ⟨e, p, herr, hm, hr⟩
  · refine .inl ⟨_, fun l => R l ∧ sc.Occupied l, [], hok, ⟨?_, ?_, by simp, rfl, rfl⟩⟩
    · exact ⟨fun l h => h, by simp, by simp, by simp, by simp, fun l hR ho => .inl ⟨hR, ho⟩,
        by simp, .nil⟩
    · refine hc.congr (fun p => ?_)
      simp only [hps, and_assoc]
  · obtain ⟨l, _, ho, rfl⟩ := (hps p).mp hm
    exact .inr ⟨e, l, herr, ho, hr⟩

end Outcome

end SrcControl.MergeTree
