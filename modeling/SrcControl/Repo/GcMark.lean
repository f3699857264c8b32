import SrcControl.Repo.Gc

/-!
# What a pass of `gc` marks

The walk from the roots and the decided roots marks exactly what they reach and the store holds;
then come tombstones, held-back transcripts, and the transcripts and signatures of what is
marked.
-/

namespace SrcControl.Reachable

section Gaps

variable {s : Store}

/-- The gaps known before make no difference to what a descent marks. -/
theorem markPresent_gaps (tree : ObjectId) (entries : List TreeEntry) (stack : List ObjectId)
    (present : BTreeSet ObjectId) (gaps gaps₂ : BTreeMap ObjectId ObjectId) :
    (markPresent s tree entries (stack, present, gaps)).1 =
        (markPresent s tree entries (stack, present, gaps₂)).1 ∧
      (markPresent s tree entries (stack, present, gaps)).2.1 =
        (markPresent s tree entries (stack, present, gaps₂)).2.1 := by
  induction entries generalizing stack present gaps gaps₂ with
  | nil => exact ⟨rfl, rfl⟩
  | cons e entries ih =>
    simp only [markPresent, List.foldl_cons, markPresentEntry] at ih ⊢
    cases s.contains e.id with
    | false => exact ih _ _ _ _
    | true =>
      cases e.kind with
      | blob => exact ih _ _ _ _
      | tree =>
        cases present.contains e.id with
        | true => exact ih _ _ _ _
        | false => exact ih _ _ _ _

theorem walkTreePartialLoop_gaps {fuel : Nat} {stack : List ObjectId}
    {present : BTreeSet ObjectId} {gaps : BTreeMap ObjectId ObjectId}
    {out : BTreeSet ObjectId × BTreeMap ObjectId ObjectId}
    (h : walkTreePartialLoop s fuel (stack, present, gaps) = .ok out)
    (gaps₂ : BTreeMap ObjectId ObjectId) :
    ∃ gaps', walkTreePartialLoop s fuel (stack, present, gaps₂) = .ok (out.1, gaps') := by
  induction fuel generalizing stack present gaps gaps₂ with
  | zero => cases h
  | succ fuel ih =>
    cases stack with
    | nil =>
      cases h
      exact ⟨gaps₂, rfl⟩
    | cons x stack =>
      simp only [walkTreePartialLoop] at h ⊢
      cases hget : s.get x with
      | error e =>
        rw [hget] at h
        cases h
      | ok o =>
        rw [hget] at h
        cases o with
        | tree t =>
          obtain ⟨hstack, hpresent⟩ := @markPresent_gaps s x t.entries stack present gaps gaps₂
          obtain ⟨gaps', hrun⟩ := @ih (markPresent s x t.entries (stack, present, gaps)).1
            (markPresent s x t.entries (stack, present, gaps)).2.1 _ h
            (markPresent s x t.entries (stack, present, gaps₂)).2.2
          rw [hstack, hpresent] at hrun
          exact ⟨gaps', hrun⟩
        | _ => cases h

theorem walkTreePartial_gaps {fuel : Nat} {referrer root : ObjectId}
    {present : BTreeSet ObjectId} {gaps : BTreeMap ObjectId ObjectId}
    {out : BTreeSet ObjectId × BTreeMap ObjectId ObjectId}
    (h : walkTreePartial s fuel referrer root present gaps = .ok out)
    (gaps₂ : BTreeMap ObjectId ObjectId) :
    ∃ gaps', walkTreePartial s fuel referrer root present gaps₂ = .ok (out.1, gaps') := by
  unfold walkTreePartial at h ⊢
  split_ifs at h ⊢ with hc hp
  · cases h
    exact ⟨gaps₂, rfl⟩
  · exact walkTreePartialLoop_gaps h gaps₂
  · cases h
    exact ⟨_, rfl⟩

/-- Gaps are objects that the store lacks. -/
def Absent (s : Store) (gaps : BTreeMap ObjectId ObjectId) : Prop :=
  ∀ id ∈ gaps, s.contains id = false

theorem Absent.insert {gaps : BTreeMap ObjectId ObjectId} (h : Absent s gaps) {id : ObjectId}
    (hid : s.contains id = false) (referrer : ObjectId) :
    Absent s (gaps.insertIfNew id referrer) := by
  intro x hx
  rw [Std.ExtTreeMap.mem_insertIfNew, Std.LawfulEqCmp.compare_eq_iff_eq] at hx
  rcases hx with rfl | hx
  · exact hid
  · exact h x hx

theorem markPresent_absent (tree : ObjectId) (entries : List TreeEntry) (w : PartialWalk)
    (h : Absent s w.2.2) : Absent s (markPresent s tree entries w).2.2 := by
  induction entries generalizing w with
  | nil => exact h
  | cons e entries ih =>
    refine ih _ ?_
    obtain ⟨stack, present, gaps⟩ := w
    simp only [markPresentEntry]
    split
    · split
      · exact h
      · split
        · exact h
        · exact h
    · next hc => exact h.insert (by simpa using hc) tree

theorem walkTreePartialLoop_absent {fuel : Nat} {w : PartialWalk}
    {out : BTreeSet ObjectId × BTreeMap ObjectId ObjectId}
    (h : walkTreePartialLoop s fuel w = .ok out) (hw : Absent s w.2.2) : Absent s out.2 := by
  induction fuel generalizing w with
  | zero => cases h
  | succ fuel ih =>
    obtain ⟨stack, present, gaps⟩ := w
    cases stack with
    | nil =>
      cases h
      exact hw
    | cons x stack =>
      simp only [walkTreePartialLoop] at h
      cases hget : s.get x with
      | error e =>
        rw [hget] at h
        cases h
      | ok o =>
        rw [hget] at h
        cases o with
        | tree t => exact ih h (markPresent_absent x t.entries _ hw)
        | _ => cases h

theorem walkTreePartial_absent {fuel : Nat} {referrer root : ObjectId}
    {present : BTreeSet ObjectId} {gaps : BTreeMap ObjectId ObjectId}
    {out : BTreeSet ObjectId × BTreeMap ObjectId ObjectId}
    (h : walkTreePartial s fuel referrer root present gaps = .ok out) (hgaps : Absent s gaps) :
    Absent s out.2 := by
  unfold walkTreePartial at h
  split_ifs at h with hc hp
  · cases h
    exact hgaps
  · exact walkTreePartialLoop_absent h hgaps
  · cases h
    exact hgaps.insert (by simpa using hc) referrer

/-- What every tree descent keeps of its state, the snapshot walk keeps. -/
theorem walkSnapshots_keeps {σ : Type} {P : σ → Prop}
    {walkRoot : ObjectId → ObjectId → BTreeSet ObjectId → σ → Except Error (BTreeSet ObjectId × σ)}
    (hwalk : ∀ sid root inc st out, walkRoot sid root inc st = .ok out → P st → P out.2)
    {fuel : Nat} {queue : List ObjectId} {inc : BTreeSet ObjectId} {st : σ}
    {out : BTreeSet ObjectId × σ} (h : walkSnapshots s walkRoot fuel queue inc st = .ok out)
    (hst : P st) : P out.2 := by
  induction fuel generalizing queue inc st with
  | zero => cases h
  | succ fuel ih =>
    cases queue with
    | nil =>
      cases h
      exact hst
    | cons x queue =>
      simp only [walkSnapshots] at h
      cases hget : s.get x with
      | error e =>
        rw [hget] at h
        cases h
      | ok o =>
        rw [hget] at h
        cases o with
        | snapshot snap =>
          simp only [bind, Except.bind] at h
          split at h
          · cases h
          · next mid hmid => exact ih h (hwalk _ _ _ _ _ hmid hst)
        | manifest m => exact ih h hst
        | _ => cases h

theorem reachableObjectsPartial_absent {fuel : Nat} {tips : List ObjectId} {r : PartialReach}
    (h : reachableObjectsPartial fuel s tips = .ok r) : Absent s r.gaps := by
  unfold reachableObjectsPartial at h
  obtain ⟨out, hout, h⟩ := Fallible.bind_ok h
  cases h
  refine walkSnapshots_keeps (P := Absent s) (fun _ _ _ _ _ => walkTreePartial_absent) hout ?_
  intro x hx
  simp at hx

end Gaps

end SrcControl.Reachable

namespace SrcControl.Gc

open Reachable

variable {s : Store}

/-- The marked objects and the recorded gaps are what the tips reach; the gaps are absent. -/
structure Covers (s : Store) (tips : List ObjectId) (seen : BTreeSet ObjectId)
    (gaps : BTreeMap ObjectId ObjectId) : Prop where
  known : known seen (gapped gaps) = reachSet s tips
  absent : Absent s gaps

theorem grown_covers {tips : List ObjectId} {tree : ObjectId} {S S' : Set ObjectId}
    (hS : S = reachSet s tips) (h : Grown s (reachSet s (tips ++ [tree])) [tree] [] S [] S') :
    S' = reachSet s (tips ++ [tree]) := by
  have hclosed : Worklist.ClosedBut s.Link ∅ S' := by
    have hstart : Worklist.ClosedBut s.Link ∅ S := by
      rw [hS]
      exact fun x hx => .inr (fun y hl => reachSet_closed s tips x hx y hl)
    simpa using h.closed ∅ (by simpa using hstart)
  refine Set.Subset.antisymm (h.within ?_) ?_
  · rw [hS]
    rintro x ⟨t, ht, hr⟩
    exact ⟨t, List.mem_append_left _ ht, hr⟩
  · rintro x ⟨t, ht, hr⟩
    refine hclosed.reach ?_ hr
    rcases List.mem_append.mp ht with ht | ht
    · refine h.kept ?_
      rw [hS]
      exact ⟨t, ht, .refl⟩
    · exact h.marks t ht

theorem walkDecidedRoot_covers {fuel : Nat} {isPartial : Bool} {tips : List ObjectId}
    {tree : ObjectId} {seen seen' : BTreeSet ObjectId} {gaps : BTreeMap ObjectId ObjectId}
    (hk : s.KindedOn (reachSet s (tips ++ [tree]))) (hseen : Covers s tips seen gaps)
    (hfull : isPartial = false → gaps = ∅)
    (h : walkDecidedRoot fuel s isPartial tree seen = .ok seen') :
    ∃ gaps', Covers s (tips ++ [tree]) seen' gaps' ∧ (isPartial = false → gaps' = ∅) := by
  have hroot : tree ∈ reachSet s (tips ++ [tree]) := ⟨tree, by simp, .refl⟩
  unfold walkDecidedRoot at h
  cases isPartial with
  | false =>
    have hgrown := walkTree_grown (G := gapped gaps) (reachSet_closed s _) hk h hroot []
    exact ⟨gaps, ⟨grown_covers hseen.known hgrown, hseen.absent⟩, hfull⟩
  | true =>
    rw [if_pos rfl] at h
    cases hrun : walkTreePartial s fuel tree tree seen ∅ with
    | error e =>
      rw [hrun] at h
      cases h
    | ok out =>
      rw [hrun] at h
      cases h
      obtain ⟨gaps', hrun'⟩ := walkTreePartial_gaps hrun gaps
      have hgrown := walkTreePartial_grown (reachSet_closed s _) hk hrun' hroot []
      exact ⟨gaps', ⟨grown_covers hseen.known hgrown, walkTreePartial_absent hrun' hseen.absent⟩,
        fun hf => by cases hf⟩

theorem decidedRoots_cover {fuel : Nat} {isPartial : Bool} (decided : List ObjectId)
    {tips : List ObjectId} {seen seen' : BTreeSet ObjectId} {gaps : BTreeMap ObjectId ObjectId}
    (hk : s.KindedOn (reachSet s (tips ++ decided))) (hseen : Covers s tips seen gaps)
    (hfull : isPartial = false → gaps = ∅)
    (h : decided.foldlM (fun seen tree => walkDecidedRoot fuel s isPartial tree seen) seen =
      .ok seen') :
    ∃ gaps', Covers s (tips ++ decided) seen' gaps' ∧ (isPartial = false → gaps' = ∅) := by
  induction decided generalizing tips seen gaps with
  | nil =>
    cases h
    exact ⟨gaps, by rwa [List.append_nil], hfull⟩
  | cons tree decided ih =>
    rw [List.foldlM_cons] at h
    obtain ⟨mid, hmid, h⟩ := Fallible.bind_ok h
    have hk' : s.KindedOn (reachSet s (tips ++ [tree])) := by
      rintro a ⟨t, ht, hr⟩
      refine hk a ⟨t, ?_, hr⟩
      rw [List.mem_append, List.mem_singleton] at ht
      rw [List.mem_append, List.mem_cons]
      exact ht.imp_right Or.inl
    obtain ⟨gaps', hcovers, hfull'⟩ := walkDecidedRoot_covers hk' hseen hfull hmid
    rw [List.append_cons] at hk ⊢
    exact ih hk hcovers hfull' h

/-- A finished walk has marked what the roots and the decided roots reach, less the gaps of a
partial clone. -/
theorem walkRoots_covers {fuel : Nat} {isPartial : Bool} {roots decided : List ObjectId}
    {seen : BTreeSet ObjectId} (hk : s.KindedOn (reachSet s (roots ++ decided)))
    (h : walkRoots fuel s isPartial roots decided = .ok seen) :
    ∃ gaps, Covers s (roots ++ decided) seen gaps ∧ (isPartial = false → gaps = ∅) := by
  have hk' : s.KindedOn (reachSet s roots) := by
    rintro a ⟨t, ht, hr⟩
    exact hk a ⟨t, List.mem_append_left _ ht, hr⟩
  unfold walkRoots at h
  cases isPartial with
  | false =>
    obtain ⟨reachable, hreach, h⟩ := Fallible.bind_ok h
    refine @decidedRoots_cover s fuel false decided roots _ _ ∅ hk ⟨?_, fun x hx => ?_⟩
      (fun _ => rfl) h
    · ext x
      rw [← reachableObjects_spec hreach hk']
      simp [known, marked, gapped]
    · simp at hx
  | true =>
    obtain ⟨reachable, hreach, h⟩ := Fallible.bind_ok h
    cases hrun : reachableObjectsPartial fuel s roots with
    | error e =>
      rw [hrun] at hreach
      cases hreach
    | ok p =>
      rw [hrun] at hreach
      cases hreach
      refine @decidedRoots_cover s fuel true decided roots _ _ p.gaps hk ⟨?_, ?_⟩
        (fun hf => by cases hf) h
      · ext x
        rw [← reachableObjectsPartial_spec hrun hk']
        rfl
      · exact reachableObjectsPartial_absent hrun

/-! ## What hangs on marked objects -/

section

variable {E : Type} {target attached : E → ObjectId} {skip : E → Bool}

theorem pruneIndex_append (entries rest : List E) (reachable : BTreeSet ObjectId) :
    (pruneIndex target attached skip (entries ++ rest) reachable).1 =
      (pruneIndex target attached skip rest
        (pruneIndex target attached skip entries reachable).1).1 := by
  have hfst : ∀ (es : List E) (acc : BTreeSet ObjectId × List E),
      (es.foldl (fun acc e => if skip e then acc
        else if acc.1.contains (target e) then (acc.1.insert (attached e), acc.2 ++ [e])
        else acc) acc).1 = (pruneIndex target attached skip es acc.1).1 := by
    intro es
    induction es with
    | nil => exact fun _ => rfl
    | cons e es ih =>
      intro acc
      simp only [pruneIndex, List.foldl_cons]
      split_ifs
      · rw [ih, ih]
      · rw [ih, ih]
      · rw [ih, ih]
  rw [pruneIndex, List.foldl_append, hfst]
  rfl

theorem pruneIndex_kept (entries : List E) {reachable : BTreeSet ObjectId} {x : ObjectId}
    (hx : x ∈ reachable) : x ∈ (pruneIndex target attached skip entries reachable).1 := by
  induction entries generalizing reachable with
  | nil => exact hx
  | cons e entries ih =>
    rw [show e :: entries = [e] ++ entries from rfl, pruneIndex_append]
    refine ih ?_
    simp only [pruneIndex, List.foldl_cons, List.foldl_nil]
    split_ifs
    · exact hx
    · exact (BTreeSet.mem_insert _ _ _).mpr (.inr hx)
    · exact hx

/-- What a listed object carries is marked with it. -/
theorem pruneIndex_attached {entries : List E} {reachable : BTreeSet ObjectId} {e : E}
    (he : e ∈ entries) (hskip : skip e = false) (htarget : target e ∈ reachable) :
    attached e ∈ (pruneIndex target attached skip entries reachable).1 := by
  obtain ⟨before, after, rfl⟩ := List.append_of_mem he
  rw [pruneIndex_append, show e :: after = [e] ++ after from rfl, pruneIndex_append]
  refine pruneIndex_kept after ?_
  have hin : (pruneIndex target attached skip before reachable).1.contains (target e) = true :=
    Std.ExtTreeSet.contains_iff_mem.mpr (pruneIndex_kept before htarget)
  simp only [pruneIndex, List.foldl_cons, List.foldl_nil] at hin ⊢
  rw [if_neg (by simp [hskip]), if_pos hin]
  exact (BTreeSet.mem_insert _ _ _).mpr (.inl rfl)

end

/-- What a repository's own records lead to: its roots, the decided roots of its stopped
operations, and what hangs on those. -/
inductive Attached (s : Store) (r : GcRepo) : ObjectId → Prop
  | reached {roots : List ObjectId} {id : ObjectId} (hroots : r.clone.roots = .ok roots)
      (hreach : id ∈ reachSet s (roots ++ r.decidedRoots)) (hstored : id ∈ s.objects) :
      Attached s r id
  | tombstone {e : Transcripts.DropEntry} (h : e ∈ r.drops) : Attached s r e.tomb
  | pending {id : ObjectId} (h : id ∈ r.pending) : Attached s r id
  | transcript {e : ObjectId × ObjectId} (h : e ∈ r.transcripts)
      (hkept : e.2 ∉ r.drops.map (·.dropped)) (hsnap : Attached s r e.1)
      (hfirst : ∀ e' ∈ r.transcripts, e'.2 ≠ e.1) : Attached s r e.2

/-- An object that a repository needs: what its records lead to, and the signatures of it. -/
inductive Needed (s : Store) (r : GcRepo) : ObjectId → Prop
  | attached {id : ObjectId} (h : Attached s r id) : Needed s r id
  | signature {e : Signatures.Entry} (h : e ∈ r.signatures) (htarget : Attached s r e.target) :
      Needed s r e.sig

theorem Attached.before_transcripts {r : GcRepo} {seen : BTreeSet ObjectId}
    (hseen : ∀ roots, r.clone.roots = .ok roots →
      ∀ id ∈ reachSet s (roots ++ r.decidedRoots), id ∈ s.objects → id ∈ seen)
    {id : ObjectId} (h : Attached s r id) (hid : ∀ e ∈ r.transcripts, e.2 ≠ id) :
    id ∈ markAll (r.drops.map (·.tomb) ++ r.pending) seen := by
  rw [mem_markAll]
  cases h with
  | reached hroots hreach hstored => exact .inr (hseen _ hroots id hreach hstored)
  | tombstone h => exact .inl (List.mem_append_left _ (List.mem_map_of_mem h))
  | pending h => exact .inl (List.mem_append_right _ h)
  | transcript h => exact absurd rfl (hid _ h)

theorem Attached.marked {r : GcRepo} {seen : BTreeSet ObjectId}
    (hseen : ∀ roots, r.clone.roots = .ok roots →
      ∀ id ∈ reachSet s (roots ++ r.decidedRoots), id ∈ s.objects → id ∈ seen)
    {id : ObjectId} (h : Attached s r id) : id ∈ (pruneTranscripts r seen).1 := by
  cases h with
  | reached hroots hreach hstored =>
    exact pruneIndex_kept _ (mem_markAll.mpr (.inr (hseen _ hroots id hreach hstored)))
  | tombstone h =>
    exact pruneIndex_kept _ (mem_markAll.mpr (.inl
      (List.mem_append_left _ (List.mem_map_of_mem h))))
  | pending h =>
    exact pruneIndex_kept _ (mem_markAll.mpr (.inl (List.mem_append_right _ h)))
  | transcript h hkept hsnap hfirst =>
    refine pruneIndex_attached h ?_ (hsnap.before_transcripts hseen hfirst)
    rw [← Bool.not_eq_true, List.contains_iff_mem]
    exact hkept

/-- What a repository needs is marked. -/
theorem mark_needed {fuel : Nat} {cutoff : Int} {r r' : GcRepo} {marked : BTreeSet ObjectId}
    (h : mark fuel cutoff r s = .ok (marked, r'))
    (hk : ∀ roots, (r.trim cutoff).clone.roots = .ok roots →
      s.KindedOn (reachSet s (roots ++ r.decidedRoots)))
    {id : ObjectId} (hneeded : Needed s (r.trim cutoff) id) : id ∈ marked := by
  unfold mark at h
  obtain ⟨roots, hroots, h⟩ := Fallible.bind_ok h
  obtain ⟨seen, hwalk, h⟩ := Fallible.bind_ok h
  cases h
  obtain ⟨gaps, hcovers, -⟩ := walkRoots_covers (hk roots hroots) hwalk
  have hseen : ∀ roots', (r.trim cutoff).clone.roots = .ok roots' →
      ∀ id ∈ reachSet s (roots' ++ (r.trim cutoff).decidedRoots), id ∈ s.objects → id ∈ seen := by
    intro roots' hroots' x hx hstored
    rw [hroots] at hroots'
    cases hroots'
    have hknown : x ∈ Reachable.known seen (gapped gaps) := by
      rw [hcovers.known]
      exact hx
    refine hknown.elim (fun h => h) (fun hgap => ?_)
    have habsent := hcovers.absent x hgap
    rw [Store.contains, Std.ExtTreeMap.contains_iff_mem.mpr hstored] at habsent
    cases habsent
  cases hneeded with
  | attached h => exact pruneIndex_kept _ (h.marked hseen)
  | signature h htarget => exact pruneIndex_attached h rfl (htarget.marked hseen)

end SrcControl.Gc
