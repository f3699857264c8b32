import SrcControl.Repo.LimitedEnds

/-!
# Filtered, size-limited reachability means what it says

A walk that succeeds has taken a tree exactly when the filter descends to it somewhere in
the history of the tips, and a blob exactly when its path matches there and no size limit
stands against it. The order of the tips is of no account.
-/

namespace SrcControl

open SlashPath

/-- The path of the entry at the end of `names`. -/
def pathOf (names : List String) : String := names.foldl join ""

namespace PrefixFilter

/-- The filter descends into the entry and everything above it. -/
def Passes (f : PrefixFilter) (names : List String) : Prop :=
  ∀ above, above <+: names → above ≠ [] → f.shouldDescend (pathOf above) = true

/-- To match a path is to descend into everything above it. -/
def CoversAncestors (f : PrefixFilter) : Prop :=
  ∀ names name, f.matchesPath (pathOf (names ++ [name])) = true → f.Passes names

end PrefixFilter

theorem pathOf_concat (names : List String) (name : String) :
    pathOf (names ++ [name]) = join (pathOf names) name := by
  simp [pathOf, List.foldl_append]

/-- The entry `id` lies at `names` below `root`. -/
inductive Occurs (s : Store) (root : ObjectId) : List String → EntryKind → ObjectId → Prop
  | root : Occurs s root [] .tree root
  | entry {names : List String} {id : ObjectId} {t : Tree} {e : TreeEntry}
      (h : Occurs s root names .tree id) (ht : s.objects[id]? = some (.tree t))
      (he : e ∈ t.entries) : Occurs s root (names ++ [e.name]) e.kind e.id

namespace Promisor

/-- A promisor's filter descends towards everything it matches. -/
theorem shouldDescend_of_matches {p : Promisor} {dir rest : String}
    (h : p.matchesPath (dir ++ "/" ++ rest) = true) : p.shouldDescend dir = true := by
  unfold shouldDescend
  unfold matchesPath at h
  cases hs : p.scope with
  | allPaths => rfl
  | prefixes ps =>
    simp only [hs] at h
    have hsparse : Sparse.matchesPath ps (dir ++ "/" ++ rest) = true := by
      simp only [Sparse.matchesPath, h, Bool.or_true]
    have hdir := Sparse.shouldDescend_of_matches hsparse
    cases ps with
    | nil => cases h
    | cons q qs =>
      simpa only [Sparse.shouldDescend, Sparse.matchesPath, Sparse.isFull, List.isEmpty_cons,
        Bool.false_or, matchesPath, hs] using hdir

theorem foldl_join_below {path : String} (h : path ≠ "") {names : List String} (hn : names ≠ []) :
    ∃ rest, names.foldl join path = path ++ "/" ++ rest := by
  induction names using List.reverseRecOn with
  | nil => exact absurd rfl hn
  | append_singleton names name ih =>
    rw [List.foldl_append, List.foldl_cons, List.foldl_nil]
    by_cases hnil : names = []
    · subst hnil
      exact ⟨name, if_neg h⟩
    · obtain ⟨rest, hrest⟩ := ih hnil
      refine ⟨rest ++ "/" ++ name, ?_⟩
      have hne : path ++ "/" ++ rest ≠ "" := by
        intro he
        have hlen := congrArg String.length he
        simp [String.length_append] at hlen
      rw [hrest, join, if_neg hne]
      simp [String.append_assoc]

theorem filter_covers (p : Promisor) : p.filter.CoversAncestors := by
  rintro names name hm above ⟨below, rfl⟩ -
  by_cases hroot : pathOf above = ""
  · rw [hroot]
    simp only [filter, shouldDescend]
    split <;> simp
  · obtain ⟨rest, hrest⟩ := foldl_join_below hroot (List.append_ne_nil_of_right_ne_nil below (List.cons_ne_nil name []))
    have hpath : pathOf (above ++ below ++ [name]) = pathOf above ++ "/" ++ rest := by
      rw [← hrest, pathOf, pathOf, List.append_assoc, List.foldl_append]
    rw [hpath] at hm
    exact shouldDescend_of_matches hm

end Promisor

namespace Reachable

open SizeGate

section Names

variable {s : Store} {f : PrefixFilter}

theorem passes_concat {names : List String} {name : String} :
    f.Passes (names ++ [name]) ↔
      f.Passes names ∧ f.shouldDescend (join (pathOf names) name) = true := by
  rw [← pathOf_concat]
  constructor
  · intro h
    exact ⟨fun above ha => h above (ha.trans (List.prefix_append _ _)),
      h _ (List.prefix_refl _) (by simp)⟩
  · rintro ⟨h, hlast⟩ above ha hne
    rcases List.prefix_concat_iff.mp ha with rfl | ha
    · exact hlast
    · exact h above ha hne

/-- A descent passes the trees that lie where the filter lets it through. -/
theorem reach_iff {root : ObjectId} {n : Node} :
    Worklist.Reach (NodeLink s f) (root, "") n ↔
      ∃ names, Occurs s root names .tree n.1 ∧ n.2 = pathOf names ∧ f.Passes names := by
  constructor
  · intro h
    induction h with
    | refl =>
      refine ⟨[], .root, rfl, fun above ha hne => ?_⟩
      exact absurd (List.prefix_nil.mp ha) hne
    | tail hab hbc ih =>
      obtain ⟨names, hocc, hpath, hpass⟩ := ih
      obtain ⟨t, ht, e, he, hk, hd, rfl⟩ := hbc
      rw [hpath] at hd
      refine ⟨names ++ [e.name], hk ▸ .entry hocc ht he, ?_, passes_concat.mpr ⟨hpass, hd⟩⟩
      rw [pathOf_concat, hpath]
  · rintro ⟨names, hocc, hpath, hpass⟩
    obtain ⟨id, path⟩ := n
    simp only at hocc hpath
    subst hpath
    generalize hkind : EntryKind.tree = kind at hocc
    induction hocc with
    | root => exact .refl
    | @entry names id t e h ht he ih =>
      rw [passes_concat] at hpass
      refine (ih hpass.1 rfl).tail ⟨t, ht, e, he, hkind.symm, hpass.2, ?_⟩
      rw [pathOf_concat]

end Names

/-- The tree lies below a snapshot of `X` where the filter descends to it. -/
def TreeInFilter (s : Store) (f : PrefixFilter) (X : Set ObjectId) (id : ObjectId) : Prop :=
  ∃ x ∈ X, ∃ sn, s.objects[x]? = some (.snapshot sn) ∧
    ∃ names, Occurs s sn.root names .tree id ∧ f.Passes names

/-- The blob lies below a snapshot of `X` at a path the filter matches. -/
def BlobInFilter (s : Store) (f : PrefixFilter) (X : Set ObjectId) (id : ObjectId) : Prop :=
  ∃ x ∈ X, ∃ sn, s.objects[x]? = some (.snapshot sn) ∧
    ∃ names, Occurs s sn.root names .blob id ∧ f.matchesPath (pathOf names) = true

/-- No blob is as large as the largest limit. -/
def UnderLimit (s : Store) (limit : Option Nat) (id : ObjectId) : Prop :=
  ∀ l ∈ limit, l = u64Max ∨ ∃ n, s.blobSize id = .ok n ∧ n < l

section Meaning

variable {s : Store} {f : PrefixFilter} {X : Set ObjectId}

theorem treeInFilter_iff {id : ObjectId} :
    TreeInFilter s f X id ↔ ∃ n ∈ rootNodes s f X, n.1 = id := by
  constructor
  · rintro ⟨x, hx, sn, hsn, names, hocc, hpass⟩
    exact ⟨(id, pathOf names), ⟨x, hx, sn, hsn, reach_iff.mpr ⟨names, hocc, rfl, hpass⟩⟩, rfl⟩
  · rintro ⟨n, ⟨x, hx, sn, hsn, hr⟩, rfl⟩
    obtain ⟨names, hocc, -, hpass⟩ := reach_iff.mp hr
    exact ⟨x, hx, sn, hsn, names, hocc, hpass⟩

theorem blobInFilter_iff (hf : f.CoversAncestors) {id : ObjectId} :
    BlobInFilter s f X id ↔ id ∈ matchedBlobs s f (rootNodes s f X) := by
  constructor
  · rintro ⟨x, hx, sn, hsn, names, hocc, hm⟩
    generalize hkind : EntryKind.blob = kind at hocc
    cases hocc with
    | root => cases hkind
    | @entry names parent t e h ht he =>
      have hr : Worklist.Reach (NodeLink s f) (sn.root, "") (parent, pathOf names) :=
        reach_iff.mpr ⟨names, h, rfl, hf names e.name hm⟩
      rw [pathOf_concat] at hm
      exact ⟨(parent, pathOf names), ⟨x, hx, sn, hsn, hr⟩, t, ht, e, he, hkind.symm, hm, rfl⟩
  · rintro ⟨n, ⟨x, hx, sn, hsn, hr⟩, t, ht, e, he, hk, hm, rfl⟩
    obtain ⟨names, hocc, hpath, -⟩ := reach_iff.mp hr
    refine ⟨x, hx, sn, hsn, names ++ [e.name], hk ▸ .entry hocc ht he, ?_⟩
    rw [pathOf_concat, ← hpath]
    exact hm

theorem keeps_later_iff {limit : Option Nat} {held : BTreeSet ObjectId} {id : ObjectId} :
    Keeps s (later limit held) id ↔ id ∈ held ∨ UnderLimit s limit id := by
  cases limit with
  | none => simp [later, Keeps, UnderLimit]
  | some l => simp [later, Keeps, UnderLimit]

end Meaning

/-! ## Without a filter -/

theorem walkSnapshots_state {σ : Type} {s : Store}
    {walkRoot : ObjectId → ObjectId → BTreeSet ObjectId → σ → Except Error (BTreeSet ObjectId × σ)}
    (hwalk : ∀ sid root inc st out, walkRoot sid root inc st = .ok out → out.2 = st)
    {fuel : Nat} {queue : List ObjectId} {inc : BTreeSet ObjectId} {st : σ}
    {out : BTreeSet ObjectId × σ} (h : walkSnapshots s walkRoot fuel queue inc st = .ok out) :
    out.2 = st := by
  induction fuel generalizing queue inc st with
  | zero => cases h
  | succ fuel ih =>
    cases queue with
    | nil =>
      cases h
      rfl
    | cons x queue =>
      rw [walkSnapshots] at h
      obtain ⟨o, hget, h⟩ := Fallible.bind_ok h
      cases o with
      | snapshot sn =>
        obtain ⟨out₁, hroot, h⟩ := Fallible.bind_ok h
        exact (ih h).trans (hwalk _ _ _ _ _ hroot)
      | manifest m => exact ih h
      | _ => cases h

theorem walkTreeSized_none {s : Store} {fuel : Nat} {gate : Option SizeGate} {root : ObjectId}
    {inc : BTreeSet ObjectId} {st : SizedState} {out : BTreeSet ObjectId × SizedState}
    (h : walkTreeSized s fuel none gate root inc st = .ok out) :
    walkTree s fuel root inc = .ok out.1 ∧ out.2 = st := by
  simp only [walkTreeSized] at h
  obtain ⟨inc', hwalk, h⟩ := Fallible.bind_ok h
  cases h
  exact ⟨hwalk, rfl⟩

theorem kindedOn_of_kinded {s : Store} {kind : ObjectId → Role} (hk : s.Kinded kind)
    (R : Set ObjectId) : s.KindedOn R := by
  intro a _ o ho r b hl o' ho'
  have hfits := hk.fits b o' ho'
  rwa [hk.links a o ho r b hl] at hfits

/-- The full closure, and no gaps. -/
theorem unfiltered_exact {s : Store} {kind : ObjectId → Role} (hk : s.Kinded kind)
    {tips : List ObjectId} {held : BTreeSet ObjectId} {fuel : Nat} {r : Limited}
    (h : reachableObjectsLimited s fuel tips none none held = .ok r) :
    (∀ id, id ∈ r.included ↔ id ∈ reachSet s tips) ∧ ∀ id, id ∉ r.gaps := by
  rw [reachableObjectsLimited, if_neg (by simp)] at h
  obtain ⟨⟨inc, st⟩, hrun, h⟩ := Fallible.bind_ok h
  cases h
  have hempty : st = ⟨∅, ∅, ∅⟩ :=
    walkSnapshots_state (fun _ _ _ _ _ h => (walkTreeSized_none h).2) hrun
  refine ⟨fun id => ?_, fun id hid => ?_⟩
  · have hspec := walk_spec (G := fun _ : SizedState => ∅) rfl
      (kindedOn_of_kinded hk (reachSet s tips))
      (fun sid root inc st inc' st' hrun hroot queue =>
        walkTree_grown (reachSet_closed s tips) (kindedOn_of_kinded hk _)
          (walkTreeSized_none hrun).1 hroot queue) hrun id
    simpa using hspec
  · rw [Std.ExtTreeSet.mem_filter] at hid
    obtain ⟨hmem, -⟩ := hid
    rw [hempty] at hmem
    exact Std.ExtTreeSet.not_mem_empty hmem

section Closure

variable {s : Store} {W : ObjectId → Nat}

theorem markEntries_weight {es : List TreeEntry} {stack : List ObjectId}
    {seen : BTreeSet ObjectId} :
    ((markEntries es stack seen).1.map W).sum ≤
      (stack.map W).sum + (es.map (fun e => W e.id)).sum := by
  induction es generalizing stack seen with
  | nil => exact Nat.le_add_right _ _
  | cons e es ih =>
    simp only [markEntries, List.foldl_cons, List.map_cons, List.sum_cons]
    cases hk : e.kind with
    | blob =>
      have hsum := @ih stack (seen.insert e.id)
      exact hsum.trans (by omega)
    | tree =>
      simp only
      split_ifs with hc
      · have hsum := @ih stack seen
        exact hsum.trans (by omega)
      · have hsum := @ih (e.id :: stack) (seen.insert e.id)
        rw [List.map_cons, List.sum_cons] at hsum
        exact hsum.trans (by omega)

theorem walkTreeLoop_isOk (hW : Weighs s W) {A : Set ObjectId}
    (hA : ∀ a ∈ A, ∃ t, s.objects[a]? = some (.tree t) ∧
      ∀ e ∈ t.entries, e.kind = .tree → e.id ∈ A) {fuel : Nat} {stack : List ObjectId}
    {seen : BTreeSet ObjectId} (hstack : ∀ a ∈ stack, a ∈ A) (hfuel : (stack.map W).sum < fuel) :
    ∃ seen', walkTreeLoop s fuel stack seen = .ok seen' := by
  induction fuel generalizing stack seen with
  | zero => exact absurd hfuel (Nat.not_lt_zero _)
  | succ fuel ih =>
    cases stack with
    | nil => exact ⟨seen, rfl⟩
    | cons a stack =>
      obtain ⟨t, ht, hbelow⟩ := hA a (hstack a (by simp))
      obtain ⟨-, -, hmem, -⟩ := markEntries_spec t.entries stack seen
      have hsum := @markEntries_weight W t.entries stack seen
      have htree : (t.entries.map (fun e => W e.id)).sum < W a := by
        have hlt := hW a _ ht
        rw [Object.links, List.map_map] at hlt
        exact hlt
      rw [List.map_cons, List.sum_cons] at hfuel
      rw [walkTreeLoop, Store.get_eq_ok_iff.mpr ht]
      have hlight : ((markEntries t.entries stack seen).1.map W).sum < fuel := by omega
      refine ih (fun y hy => ?_) hlight
      rcases hmem y hy with hy | ⟨e, he, hk, rfl⟩
      · exact hstack y (List.mem_cons_of_mem _ hy)
      · exact hbelow e he hk

theorem walkTree_isOk (hW : Weighs s W) {A : Set ObjectId}
    (hA : ∀ a ∈ A, ∃ t, s.objects[a]? = some (.tree t) ∧
      ∀ e ∈ t.entries, e.kind = .tree → e.id ∈ A) {fuel : Nat} {root : ObjectId}
    {seen : BTreeSet ObjectId} (hroot : root ∈ A) (hfuel : W root < fuel) :
    ∃ seen', walkTree s fuel root seen = .ok seen' := by
  unfold walkTree
  split_ifs
  · exact ⟨seen, rfl⟩
  · exact walkTreeLoop_isOk hW hA (by simpa using hroot) (by simpa using hfuel)

theorem unfilteredLoop_isOk {kind : ObjectId → Role} (hk : s.Kinded kind) (hW : Weighs s W)
    {R : Set ObjectId} (hR : LinkClosed s R) (hstored : ∀ x ∈ R, ∃ o, s.objects[x]? = some o)
    {gate : ObjectId → Option SizeGate} {treeFuel fuel : Nat} {queue : List ObjectId}
    {inc : BTreeSet ObjectId} {st : SizedState} (hqueue : ∀ x ∈ queue, x ∈ R ∧ kind x = .tip)
    (htree : ∀ x ∈ queue, W x ≤ treeFuel) (hfuel : (queue.map W).sum < fuel) :
    ∃ out, walkSnapshots s (fun sid root inc st => walkTreeSized s treeFuel none (gate sid) root
      inc st) fuel queue inc st = .ok out := by
  induction fuel generalizing queue inc st with
  | zero => exact absurd hfuel (Nat.not_lt_zero _)
  | succ fuel ih =>
    cases queue with
    | nil => exact ⟨_, rfl⟩
    | cons x queue =>
      obtain ⟨hx, hkind⟩ := hqueue x (by simp)
      obtain ⟨o, ho⟩ := hstored x hx
      have hfit := hk.fits x o ho
      rw [hkind] at hfit
      have hxW := htree x (by simp)
      have hgrow : ∀ new : List ObjectId, new.Sublist (successors o) →
          (∀ y ∈ queue ++ new, y ∈ R ∧ kind y = .tip) ∧ (∀ y ∈ queue ++ new, W y ≤ treeFuel) ∧
            ((queue ++ new).map W).sum < fuel := by
        intro new hnew
        refine ⟨fun y hy => ?_, queue_weight hW ho hnew htree hfuel⟩
        rcases List.mem_append.mp hy with hy | hy
        · exact hqueue y (List.mem_cons_of_mem _ hy)
        · have hlink : (Role.tip, y) ∈ o.links := mem_successors.mp (hnew.subset hy)
          exact ⟨mem_of_link hR hx ho hlink, hk.links x o ho .tip y hlink⟩
      rw [walkSnapshots, Store.get_eq_ok_iff.mpr ho]
      cases o with
      | snapshot sn =>
        have hA : ∀ a ∈ {a | a ∈ R ∧ kind a = .tree}, ∃ t, s.objects[a]? = some (.tree t) ∧
            ∀ e ∈ t.entries, e.kind = .tree → e.id ∈ {a | a ∈ R ∧ kind a = .tree} := by
          rintro a ⟨ha, hak⟩
          obtain ⟨o', ho'⟩ := hstored a ha
          have hfits := hk.fits a o' ho'
          rw [hak] at hfits
          cases o' with
          | tree t =>
            refine ⟨t, ho', fun e he hek => ⟨tree_entry_mem hR ha ho' he, ?_⟩⟩
            exact hk.links a _ ho' .tree e.id (List.mem_map.mpr ⟨e, he, by rw [hek]; rfl⟩)
          | _ => cases hfits
        have hrun : ∃ seen, walkTree s treeFuel sn.root
            (markAll sn.secrets.values (markNew sn.parents queue inc).2) = .ok seen :=
          walkTree_isOk hW hA
            ⟨mem_of_link hR hx ho (root_link sn), hk.links x _ ho .tree _ (root_link sn)⟩
            ((weighs_link hW ho (root_link sn)).trans_le hxW)
        obtain ⟨seen, hseen⟩ := hrun
        obtain ⟨-, new, hq, hsub, -⟩ := markNew_spec sn.parents queue inc
        obtain ⟨h₁, h₂, h₃⟩ := hgrow new hsub
        obtain ⟨out, hout⟩ := @ih (queue ++ new) seen st h₁ h₂ h₃
        rw [← hq] at hout
        refine ⟨out, ?_⟩
        have hbind : (walkTreeSized s treeFuel none (gate x) sn.root
            (markAll sn.secrets.values (markNew sn.parents queue inc).2) st >>= fun r =>
            walkSnapshots s (fun sid root inc st => walkTreeSized s treeFuel none (gate sid) root
              inc st) fuel (markNew sn.parents queue inc).1 r.1 r.2) = .ok out := by
          simp only [walkTreeSized, hseen]
          exact hout
        exact hbind
      | manifest m =>
        obtain ⟨-, new, hq, hsub, -⟩ := markNew_spec (m.base :: m.anchors ++ m.prev.toList) queue
          (markAll m.closure inc)
        obtain ⟨h₁, h₂, h₃⟩ := hgrow new hsub
        obtain ⟨out, hout⟩ := @ih (queue ++ new)
          (markNew (m.base :: m.anchors ++ m.prev.toList) queue (markAll m.closure inc)).2 st
          h₁ h₂ h₃
        rw [← hq] at hout
        exact ⟨out, hout⟩
      | _ => cases hfit

/-- With the closure of its tips stored, a request without a filter succeeds. -/
theorem unfiltered_isOk {kind : ObjectId → Role} (hk : s.Kinded kind) (hac : s.Acyclic)
    {tips : List ObjectId} (htips : ∀ t ∈ tips, kind t = .tip)
    (hstored : ∀ x ∈ reachSet s tips, ∃ o, s.objects[x]? = some o) (held : BTreeSet ObjectId) :
    ∃ fuel, ∀ n, fuel ≤ n → ∃ r, reachableObjectsLimited s n tips none none held = .ok r := by
  obtain ⟨W, hW⟩ := weighs_of_acyclic hac
  let start := (markNew tips [] ∅).1
  refine ⟨(start.map W).sum + 1, fun n hn => ?_⟩
  have hback : ∀ x ∈ start, x ∈ tips := by
    obtain ⟨-, new, hq, hsub, -⟩ := markNew_spec tips [] ∅
    intro x hx
    simp only [start, hq] at hx
    exact hsub.subset hx
  have hrun : ∃ out, walkSnapshots s (fun sid root inc st => walkTreeSized s n none
      (sizeGate tips none held sid) root inc st) n start (markNew tips [] ∅).2 ⟨∅, ∅, ∅⟩ =
        .ok out := by
    refine unfilteredLoop_isOk hk hW (reachSet_closed s tips) hstored ?_ ?_ hn
    · exact fun x hx => ⟨⟨x, hback x hx, .refl⟩, htips x (hback x hx)⟩
    · intro x hx
      have hle := List.single_le_sum (l := start.map W) (by simp) (W x)
        (List.mem_map.mpr ⟨x, hx, rfl⟩)
      omega
  obtain ⟨out, hrun⟩ := hrun
  refine ⟨⟨out.1, out.2.gaps.filter (fun id => !out.1.contains id)⟩, ?_⟩
  rw [reachableObjectsLimited, if_neg (by simp)]
  have hbind : (walkSnapshots s (fun sid root inc st => walkTreeSized s n none
      (sizeGate tips none held sid) root inc st) n start (markNew tips [] ∅).2 ⟨∅, ∅, ∅⟩ >>=
        fun o => pure (⟨o.1, o.2.gaps.filter (fun id => !o.1.contains id)⟩ : Limited)) =
      .ok ⟨out.1, out.2.gaps.filter (fun id => !out.1.contains id)⟩ := by
    rw [hrun]
    rfl
  exact hbind

end Closure

/-! ## The meaning of a result -/

/-- What the result of a filtered request says about the trees and blobs of the store. -/
structure Means (s : Store) (f : PrefixFilter) (tips : List ObjectId) (limit : Option Nat)
    (held : BTreeSet ObjectId) (kind : ObjectId → Role) (r : Limited) : Prop where
  trees : ∀ id, kind id = .tree → (id ∈ r.included ↔ TreeInFilter s f (history s tips) id)
  blobs : ∀ id, kind id = .blob → (id ∈ r.included ↔ BlobInFilter s f (history s tips) id ∧
    (BlobInFilter s f {t | t ∈ tips} id ∨ id ∈ held ∨ UnderLimit s limit id))
  gaps : ∀ id, id ∈ r.gaps ↔ id ∉ r.included ∧ ∃ a ∈ r.included, ∃ t,
    s.objects[a]? = some (.tree t) ∧ ∃ e ∈ t.entries, e.id = id
  disjoint : ∀ id, ¬ (id ∈ r.included ∧ id ∈ r.gaps)

section Result

variable {s : Store} {f : PrefixFilter} {tips tips' : List ObjectId} {limit : Option Nat}
  {held : BTreeSet ObjectId} {kind : ObjectId → Role}

theorem limited_means (hk : s.Kinded kind) (hf : f.CoversAncestors) {fuel : Nat} {r : Limited}
    (h : reachableObjectsLimited s fuel tips (some f) limit held = .ok r) :
    Means s f tips limit held kind r := by
  obtain ⟨htips, inc, st, hw, rfl⟩ := limited_walked hk h
  have hgap : ∀ id, id ∈ st.gaps.filter (fun id => !inc.contains id) ↔ id ∈ st.gaps ∧ id ∉ inc := by
    intro id
    have hc : inc.contains id = false ↔ id ∉ inc := by
      rw [← Bool.not_eq_true, Std.ExtTreeSet.contains_iff_mem]
    rw [Std.ExtTreeSet.mem_filter]
    simp [hc]
  refine ⟨fun id hid => ?_, fun id hid => ?_, fun id => ?_, fun id hid => ((hgap id).mp hid.2).2 hid.1⟩
  · rw [hw.mem_iff hk htips, treeInFilter_iff]
    constructor
    · exact fun hs => hs.of_tree hk htips hid
    · rintro ⟨n, hn, rfl⟩
      exact .node hn
  · rw [hw.mem_iff hk htips, blobInFilter_iff hf, blobInFilter_iff hf, ← keeps_later_iff]
    constructor
    · intro hs
      rcases hs.of_blob hk htips hid with hm | ⟨hm, hkeep⟩
      · exact ⟨matchedBlobs_mono (rootNodes_mono tips_subset_history) hm, .inl hm⟩
      · exact ⟨hm, .inr hkeep⟩
    · rintro ⟨hm, htip | hkeep⟩
      · exact .exempt htip
      · exact .blob hm hkeep
  · rw [hgap, and_comm]
    refine and_congr_right fun hid => ?_
    rw [hw.gap_iff hk htips id hid]
    constructor
    · rintro ⟨n, hn, t, ht, hnamed⟩
      exact ⟨n.1, (hw.node_done hk htips hn).1, t, ht, hnamed⟩
    · rintro ⟨a, ha, t, ht, hnamed⟩
      have hkind : kind a = .tree := by
        have hfits := hk.fits a _ ht
        cases hx : kind a <;> simp_all [Role.fits]
      obtain ⟨n, hn, rfl⟩ := (hw.taken a ha).of_tree hk htips hkind
      exact ⟨n, hn, t, ht, hnamed⟩

theorem history_congr (h : ∀ t, t ∈ tips ↔ t ∈ tips') : history s tips = history s tips' := by
  ext x
  simp only [history, Set.mem_ofPred_eq, h]

theorem readable_congr (h : ∀ t, t ∈ tips ↔ t ∈ tips') (hr : Readable s f tips limit held) :
    Readable s f tips' limit held := by
  have hset : {t | t ∈ tips} = {t | t ∈ tips'} := Set.ext h
  have hhist := history_congr (s := s) h
  exact ⟨hhist ▸ hr.snapshots, hhist ▸ hr.trees, hhist ▸ hset ▸ hr.blobs⟩

theorem scope_congr (h : ∀ t, t ∈ tips ↔ t ∈ tips') {x : ObjectId}
    (hx : Scope s f tips limit held x) : Scope s f tips' limit held x := by
  have hset : {t | t ∈ tips} = {t | t ∈ tips'} := Set.ext h
  have hhist := history_congr (s := s) h
  cases hx with
  | tip h => exact .tip (hhist ▸ h)
  | leaf ha ho hr hl => exact .leaf (hhist ▸ ha) ho hr hl
  | node hn => exact .node (hhist ▸ hn)
  | exempt hm => exact .exempt (hset ▸ hm)
  | blob hm hkeep => exact .blob (hhist ▸ hm) hkeep

/-- Two requests for the same tips that succeed return the same. -/
theorem limited_unique (hk : s.Kinded kind) (ht : ∀ t, t ∈ tips ↔ t ∈ tips') {fuel fuel' : Nat}
    {r r' : Limited} (h : reachableObjectsLimited s fuel tips (some f) limit held = .ok r)
    (h' : reachableObjectsLimited s fuel' tips' (some f) limit held = .ok r') : r = r' := by
  obtain ⟨htips, inc, st, hw, rfl⟩ := limited_walked hk h
  obtain ⟨htips', inc', st', hw', rfl⟩ := limited_walked hk h'
  have hinc : inc = inc' := by
    refine Std.ExtTreeSet.ext_mem fun id => ?_
    rw [hw.mem_iff hk htips, hw'.mem_iff hk htips']
    exact ⟨scope_congr ht, scope_congr (fun t => (ht t).symm)⟩
  subst hinc
  have hgaps : st.gaps.filter (fun id => !inc.contains id) =
      st'.gaps.filter (fun id => !inc.contains id) := by
    refine Std.ExtTreeSet.ext_mem fun id => ?_
    simp only [Std.ExtTreeSet.mem_filter, Bool.not_eq_true']
    have hcase : inc.contains id = false → (id ∈ st.gaps ↔ id ∈ st'.gaps) := by
      intro hc
      have hid : id ∉ inc := fun hin => by
        rw [Std.ExtTreeSet.contains_iff_mem.mpr hin] at hc
        cases hc
      rw [hw.gap_iff hk htips id hid, hw'.gap_iff hk htips' id hid, history_congr ht]
    simpa using hcase
  rw [hgaps]

theorem limited_readable (hk : s.Kinded kind) {fuel : Nat} {r : Limited}
    (h : reachableObjectsLimited s fuel tips (some f) limit held = .ok r) :
    Readable s f tips limit held := by
  obtain ⟨htips, inc, st, hw, -⟩ := limited_walked hk h
  exact hw.readable hk htips

end Result

/-- On every acyclic store whose ids are each of one kind, for every filter that descends
towards what it matches: a request that succeeds has its declared meaning, it succeeds when
what it reads is there, and tips in another order change nothing. Without a filter the result
is the full closure. -/
theorem limited_exact {s : Store} {kind : ObjectId → Role} (hk : s.Kinded kind) (hac : s.Acyclic)
    {f : PrefixFilter} (hf : f.CoversAncestors) (tips : List ObjectId) (limit : Option Nat)
    (held : BTreeSet ObjectId) :
    (∀ fuel r, reachableObjectsLimited s fuel tips (some f) limit held = .ok r →
      Means s f tips limit held kind r) ∧
    ((∃ fuel, ∀ n, fuel ≤ n → ∃ r, reachableObjectsLimited s n tips (some f) limit held = .ok r) ↔
      Readable s f tips limit held) ∧
    (∀ tips', (∀ t, t ∈ tips ↔ t ∈ tips') → ∀ r,
      (∃ fuel, reachableObjectsLimited s fuel tips (some f) limit held = .ok r) ↔
        ∃ fuel, reachableObjectsLimited s fuel tips' (some f) limit held = .ok r) ∧
    (∀ fuel r, reachableObjectsLimited s fuel tips none none held = .ok r →
      (∀ id, id ∈ r.included ↔ id ∈ reachSet s tips) ∧ ∀ id, id ∉ r.gaps) ∧
    ((∀ t ∈ tips, kind t = .tip) → (∀ x ∈ reachSet s tips, ∃ o, s.objects[x]? = some o) →
      ∃ fuel, ∀ n, fuel ≤ n → ∃ r, reachableObjectsLimited s n tips none none held = .ok r) := by
  have hagain : ∀ (tips₁ tips₂ : List ObjectId), (∀ t, t ∈ tips₁ ↔ t ∈ tips₂) → ∀ r,
      (∃ fuel, reachableObjectsLimited s fuel tips₁ (some f) limit held = .ok r) →
        ∃ fuel, reachableObjectsLimited s fuel tips₂ (some f) limit held = .ok r := by
    rintro tips₁ tips₂ ht r ⟨fuel, h⟩
    obtain ⟨fuel', hall⟩ := limited_isOk hk hac (readable_congr ht (limited_readable hk h))
    obtain ⟨r', h'⟩ := hall fuel' le_rfl
    rw [limited_unique hk ht h h']
    exact ⟨fuel', h'⟩
  refine ⟨fun fuel r h => limited_means hk hf h, ⟨?_, limited_isOk hk hac⟩, ?_,
    fun fuel r h => unfiltered_exact hk h, fun ht hs => unfiltered_isOk hk hac ht hs held⟩
  · rintro ⟨fuel, hall⟩
    obtain ⟨r, h⟩ := hall fuel le_rfl
    exact limited_readable hk h
  · intro tips' ht r
    exact ⟨hagain tips tips' ht r, hagain tips' tips (fun t => (ht t).symm) r⟩

/-! ## A filter on one directory -/

/-- A snapshot whose root tree holds one file. -/
def fileStore : Store :=
  testStore [(1, .snapshot ⟨testId 2, [], "a", 0, "m", ∅, default⟩),
    (2, .tree ⟨[⟨"a", .blob, testId 3, .FILE, 0⟩]⟩), (3, .blob [7])]

def fileKind (id : ObjectId) : Role :=
  if id = testId 1 then .tip else if id = testId 2 then .tree else .blob

def srcFilter : PrefixFilter := Promisor.filter ⟨.prefixes ["src/"], none, "origin"⟩

theorem acyclic_of_rank {s : Store} (rank : ObjectId → Nat)
    (h : ∀ e ∈ s.objects.toList, ∀ l ∈ e.2.links, rank l.2 < rank e.1) : s.Acyclic := by
  have hlink : ∀ a b, s.Link a b → rank b < rank a := by
    rintro a b ⟨o, ho, r, hl⟩
    exact h (a, o) ((BTreeMap.mem_toList_iff _ _ _).mpr ho) (r, b) hl
  have htrans : ∀ a b, Relation.TransGen s.Link a b → rank b < rank a := by
    intro a b hab
    induction hab with
    | single hl => exact hlink _ _ hl
    | tail _ hl ih => exact (hlink _ _ hl).trans ih
  exact fun a ha => lt_irrefl _ (htrans a a ha)

theorem kinded_of_toList {s : Store} {kind : ObjectId → Role}
    (h : ∀ e ∈ s.objects.toList, (kind e.1).fits e.2 = true ∧ ∀ l ∈ e.2.links, kind l.2 = l.1) :
    s.Kinded kind where
  fits id o ho := (h (id, o) ((BTreeMap.mem_toList_iff _ _ _).mpr ho)).1
  links id o ho r b hl := (h (id, o) ((BTreeMap.mem_toList_iff _ _ _).mpr ho)).2 (r, b) hl

theorem fileStore_kinded : fileStore.Kinded fileKind := kinded_of_toList (by decide)

theorem fileStore_acyclic : fileStore.Acyclic :=
  acyclic_of_rank (fun id => if id = testId 1 then 2 else if id = testId 2 then 1 else 0)
    (by decide)

/-- The tip's root tree stood at `src` before. -/
def movedStore : Store :=
  testStore [(1, .snapshot ⟨testId 2, [testId 4], "a", 0, "m", ∅, default⟩),
    (2, .tree ⟨[⟨"a", .blob, testId 3, .FILE, 0⟩]⟩), (3, .blob [7]),
    (4, .snapshot ⟨testId 5, [], "a", 0, "m", ∅, default⟩),
    (5, .tree ⟨[⟨"src", .tree, testId 2, .FILE, 0⟩]⟩)]

def movedKind (id : ObjectId) : Role :=
  if id = testId 1 ∨ id = testId 4 then .tip
  else if id = testId 2 ∨ id = testId 5 then .tree else .blob

theorem movedStore_acyclic : movedStore.Acyclic :=
  acyclic_of_rank (fun id => if id = testId 1 then 4 else if id = testId 4 then 3
    else if id = testId 5 then 2 else if id = testId 2 then 1 else 0) (by decide)

/-- The root tree lies at no path of the filter, and is taken all the same. A blob under the
tip's own root, but there outside the filter, is refused where an older snapshot has it inside. -/
theorem taken_outside_filter :
    (fileStore.Kinded fileKind ∧ fileStore.Acyclic ∧ srcFilter.CoversAncestors ∧
      ∃ r, reachableObjectsLimited fileStore 4 [testId 1] (some srcFilter) none ∅ = .ok r ∧
        testId 2 ∈ r.included ∧
        ¬ ∃ x ∈ history fileStore [testId 1], ∃ sn, fileStore.objects[x]? = some (.snapshot sn) ∧
          ∃ names, Occurs fileStore sn.root names .tree (testId 2) ∧
            srcFilter.matchesPath (pathOf names) = true) ∧
    movedStore.Kinded movedKind ∧ movedStore.Acyclic ∧
      ∃ r, reachableObjectsLimited movedStore 9 [testId 1] (some srcFilter) (some 0) ∅ = .ok r ∧
        testId 3 ∉ r.included ∧
        BlobInFilter movedStore srcFilter (history movedStore [testId 1]) (testId 3) ∧
        ∃ sn, movedStore.objects[testId 1]? = some (.snapshot sn) ∧
          ∃ names, Occurs movedStore sn.root names .blob (testId 3) := by
  refine ⟨⟨fileStore_kinded, fileStore_acyclic, Promisor.filter_covers _, _, rfl, by decide, ?_⟩,
    kinded_of_toList (by decide), movedStore_acyclic, _, rfl, by decide, ?_, ?_⟩
  · rintro ⟨x, -, sn, -, names, hocc, hm⟩
    generalize hkind : EntryKind.tree = kind at hocc
    generalize testId 2 = id' at hocc
    cases hocc with
    | root => exact absurd hm (by decide)
    | @entry names id t e h ht he =>
      have hflat : ∀ o ∈ fileStore.objects.toList, ∀ l ∈ o.2.links,
          l.1 = .tree → o.1 = testId 1 := by decide
      have hid := hflat (id, .tree t) ((BTreeMap.mem_toList_iff _ _ _).mpr ht)
        (e.kind.role, e.id) (List.mem_map.mpr ⟨e, he, rfl⟩) (by rw [← hkind]; rfl)
      rw [show id = testId 1 from hid] at ht
      cases ht
  · have hlink : movedStore.SnapLink (testId 1) (testId 4) := ⟨_, rfl, by decide⟩
    have hsrc : Occurs movedStore (testId 5) ["src"] .tree (testId 2) :=
      .entry (e := ⟨"src", .tree, testId 2, .FILE, 0⟩) .root rfl (List.mem_singleton_self _)
    have hfile := Occurs.entry (e := ⟨"a", .blob, testId 3, .FILE, 0⟩) hsrc rfl
      (List.mem_singleton_self _)
    exact ⟨testId 4, ⟨testId 1, by simp, .single hlink⟩, _, rfl, _, hfile, by decide⟩
  · exact ⟨_, rfl, _, Occurs.entry (e := ⟨"a", .blob, testId 3, .FILE, 0⟩) .root rfl
      (List.mem_singleton_self _)⟩

theorem limited_exact_fileStore :
    ∃ r, reachableObjectsLimited fileStore 4 [testId 1] (some srcFilter) none ∅ = .ok r ∧
      Means fileStore srcFilter [testId 1] none ∅ fileKind r :=
  ⟨_, rfl, (limited_exact fileStore_kinded fileStore_acyclic (Promisor.filter_covers _) [testId 1]
    none ∅).1 4 _ rfl⟩

end Reachable

end SrcControl
