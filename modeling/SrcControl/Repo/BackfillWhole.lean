import SrcControl.Repo.Backfill
import SrcControl.Repo.Push

/-!
# When forgetting the marker is safe

The verifying walk reads snapshots, manifests and trees, and takes the blobs, secrets and
sealed objects they name on trust. What it proves of its tips is that their closure ends
only at such leaves. The roots of `gc` that are no origin tip and no local branch it does
not see at all.
-/

namespace SrcControl

open Worklist

namespace Reachable

/-- The ids that an object of `R` names as a blob, a secret or a sealed object. -/
def leafNamed (s : Store) (R : Set ObjectId) : Set ObjectId :=
  {b | ∃ a ∈ R, ∃ o, s.objects[a]? = some o ∧ ∃ r, (r, b) ∈ o.links ∧ r ≠ .tip ∧ r ≠ .tree}

/-- The marked ids lie in `R`; outside `pending` and the leaves each was read and has its
links marked. -/
structure Expanded (s : Store) (R pending : Set ObjectId) (seen : BTreeSet ObjectId) : Prop where
  within : marked seen ⊆ R
  closed : ClosedBut s.Link (leafNamed s R ∪ pending) (marked seen)
  read : ∀ x ∈ seen, x ∈ leafNamed s R ∪ pending ∨ ∃ o, s.objects[x]? = some o

variable {s : Store} {R pending pending' : Set ObjectId} {seen seen' : BTreeSet ObjectId}

namespace Expanded

/-- Marking ids of `R` that are leaves or become pending. -/
theorem mark {ids : List ObjectId} (h : Expanded s R pending seen)
    (hmem : ∀ y, y ∈ seen' ↔ y ∈ ids ∨ y ∈ seen) (hR : ∀ y ∈ ids, y ∈ R)
    (hsub : pending ⊆ pending')
    (hnew : ∀ y ∈ ids, y ∉ seen → y ∈ leafNamed s R ∪ pending') :
    Expanded s R pending' seen' where
  within y hy := by
    rcases (hmem y).mp hy with hy | hy
    · exact hR y hy
    · exact h.within hy
  closed y hy := by
    by_cases hin : y ∈ seen
    · rcases h.closed y hin with hp | hl
      · exact .inl (hp.imp_right fun hp => hsub hp)
      · exact .inr fun z hz => (hmem z).mpr (.inr (hl z hz))
    · rcases (hmem y).mp hy with hy | hy
      · exact .inl (hnew y hy hin)
      · exact absurd hy hin
  read y hy := by
    by_cases hin : y ∈ seen
    · exact (h.read y hin).imp_left fun hp => hp.imp_right fun hp => hsub hp
    · rcases (hmem y).mp hy with hy | hy
      · exact .inl (hnew y hy hin)
      · exact absurd hy hin

/-- An id read with all its links marked is pending no more. -/
theorem settle {x : ObjectId} {o : Object} (h : Expanded s R (insert x pending) seen)
    (ho : s.objects[x]? = some o) (hl : ∀ l ∈ o.links, l.2 ∈ seen) :
    Expanded s R pending seen where
  within := h.within
  closed := by
    refine h.closed.settle (x := x) ?_ ?_
    · rintro y (hy | rfl | hy)
      · exact .inr (.inl hy)
      · exact .inl rfl
      · exact .inr (.inr hy)
    · rintro y ⟨o', ho', r, hr⟩
      obtain rfl : o = o' := Option.some.inj (ho.symm.trans ho')
      exact hl (r, y) hr
  read y hy := by
    rcases h.read y hy with (hleaf | rfl | hp) | hread
    · exact .inl (.inl hleaf)
    · exact .inr ⟨o, ho⟩
    · exact .inl (.inr hp)
    · exact .inr hread

end Expanded

/-! ## What a finished walk has read -/

theorem leafNamed_of_link {a b : ObjectId} {o : Object} {r : Role} (ha : a ∈ R)
    (ho : s.objects[a]? = some o) (hl : (r, b) ∈ o.links) (htip : r ≠ .tip) (htree : r ≠ .tree) :
    b ∈ leafNamed s R :=
  ⟨a, ha, o, ho, r, hl, htip, htree⟩

theorem walkTreeLoop_expanded (hR : LinkClosed s R) {fuel : Nat} {stack : List ObjectId}
    (h : walkTreeLoop s fuel stack seen = .ok seen') (hstack : ∀ x ∈ stack, x ∈ R)
    (hex : Expanded s R ({x | x ∈ stack} ∪ pending) seen) :
    Expanded s R pending seen' ∧ ∀ x ∈ seen, x ∈ seen' := by
  induction fuel generalizing stack seen with
  | zero => cases h
  | succ fuel ih =>
    cases stack with
    | nil =>
      cases h
      exact ⟨by simpa using hex, fun x hx => hx⟩
    | cons x stack =>
      rw [walkTreeLoop] at h
      obtain ⟨o, hget, h⟩ := Fallible.bind_ok h
      have ho := Store.get_eq_ok_iff.mp hget
      have hx : x ∈ R := hstack x (List.mem_cons_self ..)
      cases o with
      | tree t =>
        obtain ⟨hmem, hkeep, honly, hnew⟩ := markEntries_spec t.entries stack seen
        have hids : ∀ y ∈ t.entries.map (·.id), y ∈ R := by
          intro y hy
          obtain ⟨e, he, rfl⟩ := List.mem_map.mp hy
          exact tree_entry_mem hR hx ho he
        have hmark : Expanded s R
            (insert x ({y | y ∈ (markEntries t.entries stack seen).1} ∪ pending))
            (markEntries t.entries stack seen).2 := by
          refine hex.mark hmem hids ?_ fun y hy hn => ?_
          · rintro y (hy | hy)
            · rcases List.mem_cons.mp hy with rfl | hy
              · exact .inl rfl
              · exact .inr (.inl (hkeep y hy))
            · exact .inr (.inr hy)
          · rcases hnew y hy hn with hy | ⟨e, he, hb, rfl⟩
            · exact .inr (.inr (.inl hy))
            · exact .inl (leafNamed_of_link (r := .blob) hx ho
                (List.mem_map.mpr ⟨e, he, by rw [hb]; rfl⟩) (by simp) (by simp))
        have hsettled := hmark.settle ho fun l hl => (hmem l.2).mpr (.inl (tree_links_mem t l hl))
        have hnext : ∀ y ∈ (markEntries t.entries stack seen).1, y ∈ R := by
          intro y hy
          rcases honly y hy with hy | ⟨e, he, -, rfl⟩
          · exact hstack y (List.mem_cons_of_mem _ hy)
          · exact tree_entry_mem hR hx ho he
        obtain ⟨hdone, hgrow⟩ := ih h hnext hsettled
        exact ⟨hdone, fun y hy => hgrow y ((hmem y).mpr (.inr hy))⟩
      | _ => cases h

theorem walkTree_expanded (hR : LinkClosed s R) {fuel : Nat} {root : ObjectId}
    (h : walkTree s fuel root seen = .ok seen') (hroot : root ∈ R)
    (hex : Expanded s R pending seen) :
    Expanded s R pending seen' ∧ root ∈ seen' ∧ ∀ x ∈ seen, x ∈ seen' := by
  unfold walkTree at h
  split_ifs at h with hc
  · cases h
    exact ⟨hex, Std.ExtTreeSet.contains_iff_mem.mp hc, fun x hx => hx⟩
  · have hmem : ∀ y, y ∈ seen.insert root ↔ y ∈ [root] ∨ y ∈ seen := by
      intro y
      rw [BTreeSet.mem_insert, List.mem_singleton]
    have hstart : Expanded s R ({x | x ∈ [root]} ∪ pending) (seen.insert root) :=
      hex.mark hmem (by simpa using hroot) Set.subset_union_right fun y hy _ => .inr (.inl hy)
    obtain ⟨hdone, hgrow⟩ := walkTreeLoop_expanded hR h (by simpa using hroot) hstart
    exact ⟨hdone, hgrow root ((BTreeSet.mem_insert _ _ _).mpr (.inl rfl)),
      fun x hx => hgrow x ((BTreeSet.mem_insert _ _ _).mpr (.inr hx))⟩

/-- The next ids of a popped snapshot or manifest, queued. -/
theorem Expanded.queue (hex : Expanded s R pending seen) {ids queue : List ObjectId}
    {x : ObjectId} (hpend : pending ⊆ insert x {y | y ∈ queue}) (hids : ∀ y ∈ ids, y ∈ R) :
    Expanded s R (insert x {y | y ∈ (markNew ids queue seen).1}) (markNew ids queue seen).2 := by
  obtain ⟨hmem, new, hq, -, -, hall⟩ := markNew_spec ids queue seen
  refine hex.mark hmem hids ?_ fun y hy hn => ?_
  · intro y hy
    rcases hpend hy with rfl | hy
    · exact .inl rfl
    · exact .inr (hq ▸ List.mem_append_left _ hy)
  · exact .inr (.inr (hq ▸ List.mem_append_right _ (hall y hy hn)))

theorem Expanded.leaves (hex : Expanded s R pending seen) {ids : List ObjectId}
    (hids : ∀ y ∈ ids, y ∈ R ∧ y ∈ leafNamed s R) : Expanded s R pending (markAll ids seen) :=
  hex.mark (fun _ => mem_markAll) (fun y hy => (hids y hy).1) Set.Subset.rfl
    fun y hy _ => .inl (hids y hy).2

theorem markNew_within {ids queue : List ObjectId} (hids : ∀ y ∈ ids, y ∈ R)
    (hqueue : ∀ y ∈ queue, y ∈ R) : ∀ y ∈ (markNew ids queue seen).1, y ∈ R := by
  obtain ⟨-, new, hq, hsub, -⟩ := markNew_spec ids queue seen
  intro y hy
  rw [hq, List.mem_append] at hy
  rcases hy with hy | hy
  · exact hqueue y hy
  · exact hids y (hsub.subset hy)

/-- The tree descent of the strict walk. -/
def descend (s : Store) (fuel : Nat) (_ root : ObjectId) (included : BTreeSet ObjectId) (_ : Unit) :
    Except Error (BTreeSet ObjectId × Unit) := do
  pure (← walkTree s fuel root included, ())

theorem walkSnapshots_expanded (hR : LinkClosed s R) {treeFuel fuel : Nat} {queue : List ObjectId}
    {out : BTreeSet ObjectId × Unit}
    (h : walkSnapshots s (descend s treeFuel) fuel queue seen () = .ok out)
    (hqueue : ∀ x ∈ queue, x ∈ R) (hex : Expanded s R {x | x ∈ queue} seen) :
    Expanded s R ∅ out.1 ∧ ∀ x ∈ seen, x ∈ out.1 := by
  induction fuel generalizing queue seen with
  | zero => cases h
  | succ fuel ih =>
    cases queue with
    | nil =>
      cases h
      exact ⟨by simpa using hex, fun x hx => hx⟩
    | cons x queue =>
      rw [walkSnapshots] at h
      obtain ⟨o, hget, h⟩ := Fallible.bind_ok h
      have ho := Store.get_eq_ok_iff.mp hget
      have hx : x ∈ R := hqueue x (List.mem_cons_self ..)
      have hq : ∀ y ∈ queue, y ∈ R := fun y hy => hqueue y (List.mem_cons_of_mem _ hy)
      have hpop : {y | y ∈ x :: queue} ⊆ insert x {y | y ∈ queue} := by
        intro y hy
        exact List.mem_cons.mp hy
      cases o with
      | snapshot snap =>
        have hparents : ∀ y ∈ snap.parents, y ∈ R :=
          fun y hy => mem_of_link hR hx ho (r := .tip) (by simp [Object.links, hy])
        have hsecrets : ∀ y ∈ snap.secrets.values, y ∈ R ∧ y ∈ leafNamed s R := fun y hy =>
          have hl : (Role.secret, y) ∈ (Object.snapshot snap).links := by simp [Object.links, hy]
          ⟨mem_of_link hR hx ho hl, leafNamed_of_link hx ho hl (by simp) (by simp)⟩
        obtain ⟨hmem, -⟩ := markNew_spec snap.parents queue seen
        obtain ⟨⟨inc, u⟩, hroot, h⟩ := Fallible.bind_ok h
        obtain ⟨inc', htree, hret⟩ := Fallible.bind_ok hroot
        cases hret
        have hmarked := (hex.queue hpop hparents).leaves hsecrets
        obtain ⟨hdown, hin, hgrow⟩ := walkTree_expanded hR htree
          (mem_of_link hR hx ho (r := .tree) (by simp [Object.links])) hmarked
        have hsettled := hdown.settle ho fun l hl => by
          simp only [Object.links, List.mem_append, List.mem_map, List.mem_singleton] at hl
          rcases hl with (⟨y, hy, rfl⟩ | ⟨y, hy, rfl⟩) | rfl
          · exact hgrow y (mem_markAll.mpr (.inr ((hmem y).mpr (.inl hy))))
          · exact hgrow y (mem_markAll.mpr (.inl hy))
          · exact hin
        obtain ⟨hdone, hkept⟩ := ih h (markNew_within hparents hq) hsettled
        exact ⟨hdone, fun y hy =>
          hkept y (hgrow y (mem_markAll.mpr (.inr ((hmem y).mpr (.inr hy)))))⟩
      | manifest m =>
        have hnext : ∀ y ∈ m.base :: m.anchors ++ m.prev.toList, y ∈ R := fun y hy =>
          mem_of_link hR hx ho (r := .tip) (List.mem_append_right _ (List.mem_map.mpr ⟨y, hy, rfl⟩))
        have hsealed : ∀ y ∈ m.closure, y ∈ R ∧ y ∈ leafNamed s R := fun y hy =>
          have hl : (Role.sealed, y) ∈ (Object.manifest m).links :=
            List.mem_append_left _ (List.mem_map.mpr ⟨y, hy, rfl⟩)
          ⟨mem_of_link hR hx ho hl, leafNamed_of_link hx ho hl (by simp) (by simp)⟩
        obtain ⟨hmem, -⟩ := markNew_spec (m.base :: m.anchors ++ m.prev.toList) queue
          (markAll m.closure seen)
        have hqueued := (hex.leaves hsealed).queue hpop hnext
        have hsettled := hqueued.settle ho fun l hl => by
          rcases List.mem_append.mp hl with hl | hl
          · obtain ⟨y, hy, rfl⟩ := List.mem_map.mp hl
            exact (hmem y).mpr (.inr (mem_markAll.mpr (.inl hy)))
          · obtain ⟨y, hy, rfl⟩ := List.mem_map.mp hl
            exact (hmem y).mpr (.inl hy)
        have hqueue' : ∀ y ∈ (markNew (m.base :: m.anchors ++ m.prev.toList) queue
            (markAll m.closure seen)).1, y ∈ R := markNew_within hnext hq
        obtain ⟨hdone, hkept⟩ := ih h hqueue' hsettled
        exact ⟨hdone, fun y hy => hkept y ((hmem y).mpr (.inr (mem_markAll.mpr (.inr hy))))⟩
      | _ => cases h

/-- After a strict walk the closure of the tips is stored, but for what leaves lack. -/
theorem held_iff_leaves {fuel : Nat} {tips : List ObjectId}
    (h : reachableObjects fuel s tips = .ok seen) :
    (∀ t ∈ tips, s.Held t) ↔ ∀ b ∈ leafNamed s (reachSet s tips), s.Held b := by
  obtain ⟨out, hwalk, hret⟩ := Fallible.bind_ok h
  have htips : ∀ t ∈ tips, t ∈ reachSet s tips := fun t ht => ⟨t, ht, .refl⟩
  obtain ⟨hmem, new, hq, -, -, hall⟩ := markNew_spec tips [] ∅
  have hempty : Expanded s (reachSet s tips) ∅ ∅ :=
    ⟨fun x hx => absurd hx Std.ExtTreeSet.not_mem_empty,
      fun x hx => absurd hx Std.ExtTreeSet.not_mem_empty,
      fun x hx => absurd hx Std.ExtTreeSet.not_mem_empty⟩
  have hstart : Expanded s (reachSet s tips) {x | x ∈ (markNew tips [] ∅).1}
      (markNew tips [] ∅).2 :=
    hempty.mark hmem htips (Set.empty_subset _) fun y hy hn =>
      .inr (hq ▸ List.mem_append_right _ (hall y hy hn))
  obtain ⟨hdone, hkept⟩ := walkSnapshots_expanded (reachSet_closed s tips) hwalk
    (markNew_within htips (by simp)) hstart
  constructor
  · rintro hheld b ⟨a, ⟨t, ht, hreach⟩, o, ho, r, hl, -, -⟩ x hx
    exact hheld t ht x ((hreach.tail ⟨o, ho, r, hl⟩).trans hx)
  · intro hleaf t ht x hx
    have hclosed := hdone.closed
    have hread := hdone.read
    rw [Set.union_empty] at hclosed hread
    have hin : t ∈ marked out.1 := hkept t ((hmem t).mpr (.inl ht))
    rcases hclosed.reach_or hin hx with hx | ⟨p, hp, hx⟩
    · rcases hread x hx with hx | hx
      · exact hleaf x hx x .refl
      · exact hx
    · exact hleaf p hp x hx

end Reachable

/-! ## Runs of `backfill_all` -/

/-- What the store holds, and a pack's records where it holds nothing. -/
def Store.joined (s : Store) (pack : List Record) : Store :=
  pack.foldl (fun s rec =>
    if s.contains rec.1 then s else ⟨s.objects.insert rec.1 rec.2⟩) s

namespace Backfill

open Reachable Transport

variable {fuel : Nat} {idOf : Object → ObjectId} {openTransport : String → Except Error GetPack}
  {unlink : MarkerFile → Except Error Unit} {c : PartialClone} {p : Promisor}

theorem ingestPack_eq_ok_iff {s s' : Store} {pack : List Record} :
    ingestPack idOf false s pack = .ok s' ↔
      (∀ rec ∈ pack, idOf rec.2 = rec.1) ∧ s' = s.joined pack := by
  have hland : (∀ rec ∈ pack, idOf rec.2 = rec.1) →
      pack.foldlM (landRecord idOf) s = .ok (s.joined pack) := by
    intro hid
    induction pack generalizing s with
    | nil => rfl
    | cons rec pack ih =>
      have hrec : idOf rec.2 = rec.1 := hid rec (List.mem_cons_self ..)
      have hstep : landRecord idOf s rec = .ok
          (if s.contains rec.1 then s else ⟨s.objects.insert rec.1 rec.2⟩) := by
        rw [landRecord, Store.put, hrec]
        split_ifs <;> simp_all
      rw [List.foldlM_cons, hstep]
      exact ih fun r hr => hid r (List.mem_cons_of_mem _ hr)
  have hall : pack.filter (keepsRecord (droppedIds false pack)) = pack := by
    refine List.filter_eq_self.mpr fun rec _ => ?_
    cases hrec : rec.2 <;> simp [keepsRecord, droppedIds, hrec]
  have hverify : pack.forM (verifyRecord idOf) = .ok () ↔ ∀ rec ∈ pack, idOf rec.2 = rec.1 := by
    rw [Fallible.forM_ok_iff]
    refine forall₂_congr fun rec _ => ?_
    unfold verifyRecord
    split_ifs with h <;> simp [h]
  constructor
  · intro h
    unfold ingestPack at h
    obtain ⟨_, hv, h⟩ := Fallible.bind_ok h
    have hid := hverify.mp hv
    rw [hall, hland hid] at h
    exact ⟨hid, (Except.ok.inj h).symm⟩
  · rintro ⟨hid, rfl⟩
    rw [ingestPack, hverify.mpr hid, hall]
    exact hland hid

/-- The call comes to the unlinking, the origin having sent `pack`. -/
structure Reaches (fuel : Nat) (idOf : Object → ObjectId)
    (openTransport : String → Except Error GetPack) (c : PartialClone) (p : Promisor)
    (pack : List Record) : Prop where
  tips : originTips c.refs ≠ []
  sent : ∃ getPack, openTransport p.origin = .ok getPack ∧
    getPack (originTips c.refs) [] = .ok pack
  addressed : ∀ rec ∈ pack, idOf rec.2 = rec.1
  walked : ∃ seen, reachableObjects fuel (c.store.joined pack) (verifyTips c.refs) = .ok seen

/-- The clone forgets that it is partial only when every root of `gc` has its closure, and
an error leaves the marker. -/
structure ForgetsOnlyWhole (r : EStateM.Result Error PartialClone Unit) : Prop where
  whole : ∀ c' rs, r = .ok () c' ∨ (∃ e, r = .error e c') → c'.promisor = none →
    c'.roots = .ok rs → ∀ id ∈ rs, c'.store.Held id
  kept : ∀ e c', r = .error e c' → c'.promisor ≠ none

/-- What the verification leaves open is whole: the roots it does not walk, and the leaves
it does not read. -/
structure WholeBeyond (s : Store) (verified roots : List ObjectId) : Prop where
  roots : ∀ id ∈ roots, id ∉ verified → s.Held id
  leaves : ∀ b ∈ leafNamed s (reachSet s verified), s.Held b

/-- Before the unlinking: either the marker will not go, or the other files will and
nothing the verification leaves open is missing. -/
def SafeToForget (unlink : MarkerFile → Except Error Unit) (c : PartialClone)
    (pack : List Record) : Prop :=
  (∃ e, unlink .promisor = .error e) ∨
    (c.blobLimitFile = true → unlink .blobLimit = .ok ()) ∧
    (c.lazy = true → unlink .lazy = .ok ()) ∧
    ∀ rs, c.roots = .ok rs → WholeBeyond (c.store.joined pack) (verifyTips c.refs) rs

theorem verifyTips_subset_roots {rs : List ObjectId} (h : c.roots = .ok rs) :
    ∀ t ∈ verifyTips c.refs, t ∈ rs := by
  unfold PartialClone.roots at h
  obtain ⟨head, -, h⟩ := Fallible.bind_ok h
  cases h
  intro t ht
  rw [Std.ExtTreeSet.mem_toList, mem_markAll]
  refine .inl ?_
  rcases List.mem_append.mp ht with ht | ht
  · obtain ⟨r, hr, rfl⟩ := List.mem_map.mp ht
    have hin : r.2 ∈ c.refs.listRemoteTips.map (·.2) :=
      List.mem_map.mpr ⟨r, (List.mem_filter.mp hr).1, rfl⟩
    simp only [List.mem_append, hin, true_or, or_true]
  · simp only [List.mem_append, ht, true_or]

theorem backfillAll_of_reaches {pack : List Record} (hp : c.promisor = some p)
    (h : Reaches fuel idOf openTransport c p pack) :
    backfillAll fuel idOf openTransport unlink c =
      remove unlink { c with store := c.store.joined pack } := by
  obtain ⟨htips, ⟨getPack, hopen, hsent⟩, hid, seen, hwalk⟩ := h
  have htransfer : transferObjects idOf getPack c.store (originTips c.refs) [] =
      .ok (c.store.joined pack) := by
    rw [transferObjects, hsent]
    exact ingestPack_eq_ok_iff.mpr ⟨hid, rfl⟩
  have hne : (originTips c.refs).isEmpty = false := by simpa using htips
  simp only [backfillAll, bind, EStateM.bind, get, getThe, MonadStateOf.get, EStateM.get, hp,
    hopen, orThrow, pure, EStateM.pure, hne, htransfer, set, EStateM.set, hwalk,
    Bool.false_eq_true, if_false]

theorem backfillAll_stops (unlink : MarkerFile → Except Error Unit) (hp : c.promisor = some p)
    (h : ∀ pack, ¬ Reaches fuel idOf openTransport c p pack) :
    ∃ e c', backfillAll fuel idOf openTransport unlink c = .error e c' ∧ c'.promisor = some p := by
  simp only [backfillAll, bind, EStateM.bind, get, getThe, MonadStateOf.get, EStateM.get, hp]
  cases hopen : openTransport p.origin with
  | error e => exact ⟨e, c, rfl, hp⟩
  | ok getPack =>
    simp only [orThrow, pure, EStateM.pure]
    by_cases hne : originTips c.refs = []
    · rw [hne]
      exact ⟨_, c, rfl, hp⟩
    · have hfull : (originTips c.refs).isEmpty = false := by simpa using hne
      simp only [hfull, Bool.false_eq_true, if_false]
      cases htransfer : transferObjects idOf getPack c.store (originTips c.refs) [] with
      | error e => exact ⟨e, c, rfl, hp⟩
      | ok store =>
        obtain ⟨pack, hsent, hingest⟩ := Fallible.bind_ok htransfer
        obtain ⟨hid, rfl⟩ := ingestPack_eq_ok_iff.mp hingest
        cases hwalk : reachableObjects fuel (c.store.joined pack) (verifyTips c.refs) with
        | error e =>
          refine ⟨e, { c with store := c.store.joined pack, promisor := some p }, ?_, rfl⟩
          simp only [EStateM.bind, EStateM.pure, set, EStateM.set, hwalk]
          rfl
        | ok seen => exact absurd ⟨hne, ⟨getPack, hopen, hsent⟩, hid, seen, hwalk⟩ (h pack)

theorem removeFileIfExists_ok {present : PartialClone → Bool} {gone : PartialClone → PartialClone}
    {outcome : Except Error Unit} (h : present c = true → outcome = .ok ())
    (hgone : present c = false → gone c = c) :
    removeFileIfExists outcome present gone c = .ok () (gone c) := by
  simp only [removeFileIfExists, bind, EStateM.bind, get, getThe, MonadStateOf.get, EStateM.get]
  cases hpres : present c with
  | false =>
    rw [hgone hpres]
    rfl
  | true =>
    rw [h hpres]
    rfl

theorem removeFileIfExists_error {present : PartialClone → Bool}
    {gone : PartialClone → PartialClone} {outcome : Except Error Unit} {e : Error}
    (h : present c = true) (hout : outcome = .error e) :
    removeFileIfExists outcome present gone c = .error e c := by
  simp only [removeFileIfExists, bind, EStateM.bind, get, getThe, MonadStateOf.get, EStateM.get, h,
    hout]
  rfl

theorem then_ok {m : BackfillM Unit} {k : Unit → BackfillM Unit} {c' : PartialClone}
    (h : m c = .ok () c') : (m >>= k) c = k () c' := by
  simp only [bind, EStateM.bind, h]

theorem then_error {m : BackfillM Unit} {k : Unit → BackfillM Unit} {e : Error}
    {c' : PartialClone} (h : m c = .error e c') : (m >>= k) c = .error e c' := by
  simp only [bind, EStateM.bind, h]

theorem remove_marker {e : Error} (hp : c.promisor = some p) (h : unlink .promisor = .error e) :
    remove unlink c = .error e c :=
  then_error (removeFileIfExists_error (by rw [hp]; rfl) h)

theorem remove_marker_gone (hp : c.promisor = some p) (h : unlink .promisor = .ok ()) :
    removeFileIfExists (unlink .promisor) (fun c => c.promisor.isSome)
      (fun c => { c with promisor := none }) c = .ok () { c with promisor := none } :=
  removeFileIfExists_ok (fun _ => h) fun hnone => by
    rw [hp] at hnone
    cases hnone

theorem remove_limit_gone (h : c.blobLimitFile = true → unlink .blobLimit = .ok ()) :
    removeFileIfExists (unlink .blobLimit) (fun c => c.blobLimitFile)
      (fun c => { c with blobLimitFile := false }) c = .ok () { c with blobLimitFile := false } :=
  removeFileIfExists_ok h fun hfile => by
    rw [← hfile]

theorem remove_lazy_gone (h : c.lazy = true → unlink .lazy = .ok ()) :
    removeFileIfExists (unlink .lazy) (fun c => c.lazy) (fun c => { c with lazy := false }) c =
      .ok () { c with lazy := false } :=
  removeFileIfExists_ok h fun hfile => by
    rw [← hfile]

theorem remove_ok (hp : c.promisor = some p) (h : unlink .promisor = .ok ())
    (hlimit : c.blobLimitFile = true → unlink .blobLimit = .ok ())
    (hlazy : c.lazy = true → unlink .lazy = .ok ()) :
    remove unlink c =
      .ok () { c with promisor := none, blobLimitFile := false, lazy := false } := by
  rw [remove, then_ok (remove_marker_gone hp h),
    then_ok (remove_limit_gone (c := { c with promisor := none }) hlimit)]
  exact remove_lazy_gone (c := { c with promisor := none, blobLimitFile := false }) hlazy

/-- A file left behind after the marker: the call fails and the marker is gone. -/
theorem remove_error (hp : c.promisor = some p) (h : unlink .promisor = .ok ())
    (hn : ¬ ((c.blobLimitFile = true → unlink .blobLimit = .ok ()) ∧
      (c.lazy = true → unlink .lazy = .ok ()))) :
    ∃ e c', remove unlink c = .error e c' ∧ c'.promisor = none := by
  rw [remove, then_ok (remove_marker_gone hp h)]
  by_cases hlimit : c.blobLimitFile = true → unlink .blobLimit = .ok ()
  · rw [then_ok (remove_limit_gone (c := { c with promisor := none }) hlimit)]
    obtain ⟨hfile, hout⟩ := Classical.not_imp.mp fun hlazy => hn ⟨hlimit, hlazy⟩
    cases hlazy : unlink .lazy with
    | ok u => exact absurd hlazy hout
    | error e => exact ⟨e, _, removeFileIfExists_error hfile rfl, rfl⟩
  · obtain ⟨hfile, hout⟩ := Classical.not_imp.mp hlimit
    cases hlimit' : unlink .blobLimit with
    | ok u => exact absurd hlimit' hout
    | error e => exact ⟨e, _, then_error (removeFileIfExists_error hfile rfl), rfl⟩

/-- The walked tips are roots, so the roots are whole when what lies beyond the walk is. -/
theorem roots_held_iff {s : Store} {verified rs : List ObjectId} {seen : BTreeSet ObjectId}
    (hwalk : reachableObjects fuel s verified = .ok seen) (hsub : ∀ t ∈ verified, t ∈ rs) :
    (∀ id ∈ rs, s.Held id) ↔ WholeBeyond s verified rs := by
  constructor
  · intro h
    exact ⟨fun id hid _ => h id hid, (held_iff_leaves hwalk).mp fun t ht => h t (hsub t ht)⟩
  · intro h id hid
    by_cases hin : id ∈ verified
    · exact (held_iff_leaves hwalk).mpr h.leaves id hin
    · exact h.roots id hid hin

theorem ForgetsOnlyWhole.of_kept {e : Error} {c' : PartialClone} (h : c'.promisor = some p) :
    ForgetsOnlyWhole (.error e c') where
  whole c'' rs hrun hgone := by
    rcases hrun with hrun | ⟨_, hrun⟩
    · cases hrun
    · cases hrun
      rw [h] at hgone
      cases hgone
  kept e' c'' hrun := by
    cases hrun
    rw [h]
    simp

theorem ForgetsOnlyWhole.of_whole {c' : PartialClone}
    (h : ∀ rs, c'.roots = .ok rs → ∀ id ∈ rs, c'.store.Held id) :
    ForgetsOnlyWhole (.ok () c') where
  whole c'' rs hrun _ := by
    rcases hrun with hrun | ⟨_, hrun⟩
    · cases hrun
      exact h rs
    · cases hrun
  kept e' c'' hrun := by cases hrun

/-- A partial clone forgets that it is partial only when it is whole, and keeps the marker
on an error, exactly when every call that comes to the unlinking is safe. -/
theorem forgets_only_whole_iff (fuel : Nat) (idOf : Object → ObjectId)
    (openTransport : String → Except Error GetPack) (unlink : MarkerFile → Except Error Unit)
    {c : PartialClone} {p : Promisor} (hp : c.promisor = some p) :
    ForgetsOnlyWhole (backfillAll fuel idOf openTransport unlink c) ↔
      ∀ pack, Reaches fuel idOf openTransport c p pack → SafeToForget unlink c pack := by
  constructor
  · intro hprop pack hreach
    obtain ⟨seen, hwalk⟩ := hreach.walked
    rw [backfillAll_of_reaches hp hreach] at hprop
    cases hmarker : unlink .promisor with
    | error e => exact .inl ⟨e, hmarker⟩
    | ok u =>
      by_cases hfiles : (c.blobLimitFile = true → unlink .blobLimit = .ok ()) ∧
          (c.lazy = true → unlink .lazy = .ok ())
      · refine .inr ⟨hfiles.1, hfiles.2, fun rs hrs => ?_⟩
        rw [remove_ok (c := { c with store := c.store.joined pack }) hp hmarker hfiles.1
          hfiles.2] at hprop
        exact (roots_held_iff hwalk (verifyTips_subset_roots hrs)).mp
          (hprop.whole _ rs (.inl rfl) rfl hrs)
      · obtain ⟨e, c', hrun, hgone⟩ := remove_error (c := { c with store := c.store.joined pack })
          hp hmarker hfiles
        exact absurd hgone (hprop.kept e c' hrun)
  · intro hsafe
    by_cases hreach : ∃ pack, Reaches fuel idOf openTransport c p pack
    · obtain ⟨pack, hreach⟩ := hreach
      obtain ⟨seen, hwalk⟩ := hreach.walked
      rw [backfillAll_of_reaches hp hreach]
      rcases hsafe pack hreach with ⟨e, hmarker⟩ | ⟨hlimit, hlazy, hwhole⟩
      · rw [remove_marker (c := { c with store := c.store.joined pack }) hp hmarker]
        exact .of_kept hp
      · cases hmarker : unlink .promisor with
        | error e =>
          rw [remove_marker (c := { c with store := c.store.joined pack }) hp hmarker]
          exact .of_kept hp
        | ok u =>
          rw [remove_ok (c := { c with store := c.store.joined pack }) hp hmarker hlimit hlazy]
          exact .of_whole fun rs hrs =>
            (roots_held_iff hwalk (verifyTips_subset_roots hrs)).mpr (hwhole rs hrs)
    · obtain ⟨e, c', hrun, hkept⟩ := backfillAll_stops unlink hp
        (not_exists.mp hreach)
      rw [hrun]
      exact .of_kept hkept

/-! ## A clone that undid a pull -/

def undoneRefs : Refs :=
  ⟨(∅ : BTreeMap String ObjectId).insert "main" (testId 2),
    (∅ : BTreeMap String ObjectId).insert "origin/main" (testId 2), "main"⟩

/-- The pulled snapshot 6 names the tree 3, whose file 4 was over the blob limit. -/
def undoneClone : PartialClone where
  store := testStore [(1, .tree Push.emptyTree), (2, .snapshot (Push.testSnapshot 1 [])),
    (3, .tree Push.docsTree), (6, .snapshot (Push.testSnapshot 3 [2]))]
  refs := undoneRefs
  promisor := some ⟨.allPaths, some 1024, "origin"⟩
  blobLimitFile := true
  lazy := false
  mergeHead := none
  pickHead := none
  rebase := none
  sessions := []
  log := [⟨1, 0, "pull", "main", "main", [("main", some (testId 2), some (testId 6))]⟩,
    ⟨2, 0, "undo: pull", "main", "main", [("main", some (testId 6), some (testId 2))]⟩]

/-- The origin, whose branch was moved back to snapshot 2. -/
def rewoundOrigin : Repository :=
  ⟨testStore [(1, .tree Push.emptyTree), (2, .snapshot (Push.testSnapshot 1 []))],
    ⟨(∅ : BTreeMap String ObjectId).insert "main" (testId 2), ∅, "main"⟩, Push.running,
    Push.noIndexes, false⟩

def dialOrigin (_ : String) : Except Error GetPack :=
  .ok (fun wants haves => buildPack 9 rewoundOrigin wants haves)

def unlinked (_ : MarkerFile) : Except Error Unit := .ok ()

theorem forgets_only_whole_iff_undone :
    ForgetsOnlyWhole (backfillAll 9 Push.testAddress dialOrigin unlinked undoneClone) ↔
      ∀ pack, Reaches 9 Push.testAddress dialOrigin undoneClone ⟨.allPaths, some 1024, "origin"⟩
        pack → SafeToForget unlinked undoneClone pack :=
  forgets_only_whole_iff 9 Push.testAddress dialOrigin unlinked rfl

/-- The marker goes while the log still names a snapshot whose file was never fetched. -/
theorem marker_gone_above_hole :
    ¬ ForgetsOnlyWhole (backfillAll 9 Push.testAddress dialOrigin unlinked undoneClone) := by
  intro h
  have hrun : backfillAll 9 Push.testAddress dialOrigin unlinked undoneClone =
      .ok () { undoneClone with promisor := none, blobLimitFile := false } := rfl
  have hroots : undoneClone.roots = .ok [testId 2, testId 6] := rfl
  have hheld := h.whole _ _ (.inl hrun) rfl hroots (testId 6) (by simp)
  have hroot : undoneClone.store.Link (testId 6) (testId 3) :=
    ⟨.snapshot (Push.testSnapshot 3 [2]), rfl, .tree, by decide⟩
  have hguide : undoneClone.store.Link (testId 3) (testId 4) :=
    ⟨.tree Push.docsTree, rfl, .blob, by decide⟩
  obtain ⟨o, ho⟩ := hheld (testId 4) ((Relation.ReflTransGen.single hroot).tail hguide)
  have hnone : undoneClone.store.objects[testId 4]? = none := rfl
  rw [hnone] at ho
  cases ho

end Backfill

end SrcControl
