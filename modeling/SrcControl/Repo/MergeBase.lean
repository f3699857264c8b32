import SrcControl.Lib.BreadthFirst
import SrcControl.Lib.Worklist
import SrcControl.Repo.Ancestry

/-!
# Merge bases

The search from `b` returns the common ancestor at the end of the earliest parent path: the
shortest, and among equals the first in parent order. That one is a lowest common ancestor
exactly when no common ancestor that is not lowest is met before every lowest one.
-/

namespace SrcControl.Ancestry

open BreadthFirst Relation

/-! ## The parent graph -/

def IsSnapshot (s : Store) (id : ObjectId) : Prop := ∃ sn, s.objects[id]? = some (.snapshot sn)

def parentsOf (s : Store) (id : ObjectId) : List ObjectId :=
  match s.objects[id]? with
  | some (.snapshot sn) => sn.parents
  | _ => []

def Parent (s : Store) (x p : ObjectId) : Prop := p ∈ parentsOf s x

/-- The parents of stored snapshots are stored snapshots, and none is its own ancestor. -/
structure History (s : Store) : Prop where
  closed : ∀ {x p}, IsSnapshot s x → Parent s x p → IsSnapshot s p
  acyclic : ∀ x, ¬TransGen (Parent s) x x

/-- `c` is `x` or reached from it over parents. -/
def Ancestor (s : Store) (x c : ObjectId) : Prop := ReflTransGen (Parent s) x c

def Common (s : Store) (a b c : ObjectId) : Prop := Ancestor s a c ∧ Ancestor s b c

/-- A common ancestor that is no proper ancestor of another. -/
def Lowest (s : Store) (a b c : ObjectId) : Prop :=
  Common s a b c ∧ ∀ d, Common s a b d → ¬TransGen (Parent s) d c

variable {s : Store} {a b x y z : ObjectId} {queue : List ObjectId} {set : BTreeSet ObjectId}

theorem ancestor_iff_follows : Ancestor s x y ↔ ∃ R, Follows (parentsOf s) x R y := by
  constructor
  · intro h
    induction h with
    | refl => exact ⟨[], .nil x⟩
    | tail _ hp ih =>
      obtain ⟨R, hR⟩ := ih
      obtain ⟨k, hk⟩ := List.mem_iff_getElem?.mp hp
      exact ⟨R ++ [k], hR.snoc hk⟩
  · rintro ⟨R, hR⟩
    induction hR with
    | nil x => exact .refl
    | cons h _ ih => exact .head (List.mem_of_getElem? h) ih

theorem History.ancestor (hs : History s) (hx : IsSnapshot s x) (h : Ancestor s x y) :
    IsSnapshot s y := by
  induction h with
  | refl => exact hx
  | tail _ hp ih => exact hs.closed ih hp

theorem getSnapshot_eq {sn : Snapshot} (h : s.objects[x]? = some (.snapshot sn)) :
    s.getSnapshot x = .ok sn := by
  rw [Store.getSnapshot, Store.get, h]
  rfl

theorem parentsOf_eq {sn : Snapshot} (h : s.objects[x]? = some (.snapshot sn)) :
    parentsOf s x = sn.parents := by
  rw [parentsOf, h]

/-! ## Queueing -/

theorem idxOf_append {ps qs : List ObjectId} (h : x ∈ ps) : (ps ++ qs).idxOf x = ps.idxOf x :=
  List.idxOf_append_of_mem h

theorem enqueue_cons (p : ObjectId) (ps : List ObjectId) (queue : List ObjectId)
    (set : BTreeSet ObjectId) : enqueue (p :: ps) queue set =
      if p ∈ set then enqueue ps queue set else enqueue ps (queue ++ [p]) (set.insert p) := by
  rw [enqueue, List.foldl_cons]
  by_cases hp : p ∈ set
  · have hc : set.contains p = true := Std.ExtTreeSet.mem_iff_contains.mp hp
    simp only [hc, hp, if_true]
    rfl
  · have hc : ¬set.contains p = true := fun hc => hp (Std.ExtTreeSet.mem_iff_contains.mpr hc)
    simp only [hc, hp, if_false]
    rfl

theorem enqueue_spec (ps : List ObjectId) (queue : List ObjectId) (set : BTreeSet ObjectId) :
    ∃ new, (enqueue ps queue set).1 = queue ++ new ∧ Fresh ps (· ∈ set) new ∧
      ∀ x, x ∈ (enqueue ps queue set).2 ↔ x ∈ set ∨ x ∈ ps := by
  have hrun : ∀ (todo done : List ObjectId) (new : List ObjectId) (set' : BTreeSet ObjectId),
      Fresh done (· ∈ set) new → (∀ x, x ∈ set' ↔ x ∈ set ∨ x ∈ done) →
      ∃ new', (enqueue todo (queue ++ new) set').1 = queue ++ new' ∧
        Fresh (done ++ todo) (· ∈ set) new' ∧
        ∀ x, x ∈ (enqueue todo (queue ++ new) set').2 ↔ x ∈ set ∨ x ∈ done ++ todo := by
    intro todo
    induction todo with
    | nil =>
      intro done new set' hnew hset
      rw [List.append_nil]
      exact ⟨new, rfl, hnew, hset⟩
    | cons p todo ih =>
      intro done new set' hnew hset
      have happ : done ++ p :: todo = (done ++ [p]) ++ todo := by simp
      rw [happ, enqueue_cons]
      have horder : new.Pairwise (fun x y => (done ++ [p]).idxOf x < (done ++ [p]).idxOf y) := by
        refine List.Pairwise.imp_of_mem (fun {x y} hx hy hlt => ?_) hnew.order
        rw [idxOf_append ((hnew.mem x).mp hx).1, idxOf_append ((hnew.mem y).mp hy).1]
        exact hlt
      split_ifs with hp
      · have hold := (hset p).mp hp
        refine ih (done ++ [p]) new set' ⟨fun z => ?_, horder⟩ (fun x => ?_)
        · rw [hnew.mem, List.mem_append, List.mem_singleton]
          constructor
          · exact fun hz => ⟨.inl hz.1, hz.2⟩
          · rintro ⟨hz | rfl, hno⟩
            · exact ⟨hz, hno⟩
            · exact ⟨hold.resolve_left hno, hno⟩
        · rw [hset, List.mem_append, List.mem_singleton]
          constructor
          · exact fun hx => hx.imp_right .inl
          · rintro (hx | hx | rfl)
            · exact .inl hx
            · exact .inr hx
            · exact hold
      · have hno : ¬(p ∈ set ∨ p ∈ done) := fun h => hp ((hset p).mpr h)
        rw [List.append_assoc]
        refine ih (done ++ [p]) (new ++ [p]) (set'.insert p) ⟨fun z => ?_, ?_⟩ (fun x => ?_)
        · rw [List.mem_append, hnew.mem, List.mem_append, List.mem_singleton]
          constructor
          · rintro (hz | rfl)
            · exact ⟨.inl hz.1, hz.2⟩
            · exact ⟨.inr rfl, fun hin => hno (.inl hin)⟩
          · exact fun hz => hz.1.imp_left (fun hin => ⟨hin, hz.2⟩)
        · refine List.pairwise_append.mpr ⟨horder, List.pairwise_singleton _ _, fun x hx y hy => ?_⟩
          obtain rfl := List.mem_singleton.mp hy
          have hin := ((hnew.mem x).mp hx).1
          rw [idxOf_append hin, List.idxOf_append_of_notMem (fun h => hno (.inr h))]
          exact (List.idxOf_lt_length_of_mem hin).trans_le (Nat.le_add_right _ _)
        · rw [BTreeSet.mem_insert, hset, List.mem_append, List.mem_singleton]
          tauto
  obtain ⟨new, hqueue, hnew, hset⟩ := hrun ps [] [] set
    ⟨fun z => by simp, List.Pairwise.nil⟩ (fun x => by simp)
  rw [List.append_nil] at hqueue hset
  exact ⟨new, hqueue, hnew, hset⟩

/-! ## The loops end -/

/-- The stored ids not marked yet. -/
def unmarked (s : Store) (set : BTreeSet ObjectId) : List ObjectId :=
  s.objects.keys.filter (fun x => x ∉ set)

theorem mem_unmarked : x ∈ unmarked s set ↔ (∃ o, s.objects[x]? = some o) ∧ x ∉ set := by
  rw [unmarked, List.mem_filter, BTreeMap.mem_keys_iff, decide_eq_true_eq]

theorem nodup_unmarked (s : Store) (set : BTreeSet ObjectId) : (unmarked s set).Nodup :=
  List.Nodup.filter _ Std.ExtTreeMap.nodup_keys

/-- What is queued anew is no longer unmarked. -/
theorem unmarked_le {ps new : List ObjectId} {set' : BTreeSet ObjectId}
    (hnew : Fresh ps (· ∈ set) new) (hset : ∀ x, x ∈ set' ↔ x ∈ set ∨ x ∈ ps)
    (hps : ∀ p ∈ ps, IsSnapshot s p) :
    new.length + (unmarked s set').length ≤ (unmarked s set).length := by
  have hnodup : new.Nodup := hnew.order.imp (fun hlt heq => by
    subst heq
    exact Nat.lt_irrefl _ hlt)
  have hdisj : new.Disjoint (unmarked s set') := fun x hx hin =>
    (mem_unmarked.mp hin).2 ((hset x).mpr (.inr ((hnew.mem x).mp hx).1))
  rw [← List.length_append]
  refine (List.subperm_of_subset (hnodup.append (nodup_unmarked s set') hdisj) ?_).length_le
  intro x hx
  rcases List.mem_append.mp hx with hx | hx
  · obtain ⟨hin, hno⟩ := (hnew.mem x).mp hx
    obtain ⟨sn, hsn⟩ := hps x hin
    exact mem_unmarked.mpr ⟨⟨_, hsn⟩, hno⟩
  · obtain ⟨hstored, hno⟩ := mem_unmarked.mp hx
    exact mem_unmarked.mpr ⟨hstored, fun hin => hno ((hset x).mpr (.inl hin))⟩

theorem ancestorsLoop_spec (hs : History s) (hin : a ∈ set) (hq : ∀ x ∈ queue, x ∈ set)
    (hanc : ∀ x ∈ set, IsSnapshot s x ∧ Ancestor s a x)
    (hclosed : Worklist.ClosedBut (Parent s) {x | x ∈ queue} {x | x ∈ set}) {fuel : Nat}
    (hfuel : queue.length + (unmarked s set).length < fuel) :
    ∃ set', ancestorsLoop s fuel queue set = .ok set' ∧ ∀ x, x ∈ set' ↔ Ancestor s a x := by
  induction fuel generalizing queue set with
  | zero => omega
  | succ fuel ih =>
    cases queue with
    | nil =>
      refine ⟨set, rfl, fun x => ⟨fun hx => (hanc x hx).2, fun hx => ?_⟩⟩
      have hnone : Worklist.ClosedBut (Parent s) ∅ {x | x ∈ set} :=
        hclosed.mono (fun y hy => absurd hy List.not_mem_nil)
      exact hnone.reach hin hx
    | cons y rest =>
      obtain ⟨⟨sn, hsn⟩, hay⟩ := hanc y (hq y List.mem_cons_self)
      have hps : ∀ p ∈ sn.parents, IsSnapshot s p ∧ Ancestor s a p := by
        intro p hp
        have hparent : Parent s y p := by rwa [Parent, parentsOf_eq hsn]
        exact ⟨hs.closed ⟨sn, hsn⟩ hparent, hay.tail hparent⟩
      obtain ⟨new, hqueue, hnew, hset⟩ := enqueue_spec sn.parents rest set
      have hle := unmarked_le hnew hset (fun p hp => (hps p hp).1)
      have hstep : ancestorsLoop s (fuel + 1) (y :: rest) set = ancestorsLoop s fuel (rest ++ new)
          (enqueue sn.parents rest set).2 := by
        rw [ancestorsLoop, Store.get, hsn, ← hqueue]
        rfl
      rw [hstep]
      refine ih ((hset a).mpr (.inl hin)) (fun x hx => ?_) (fun x hx => ?_) ?_ ?_
      · rw [hset]
        rcases List.mem_append.mp hx with hx | hx
        · exact .inl (hq x (List.mem_cons_of_mem y hx))
        · exact .inr ((hnew.mem x).mp hx).1
      · rcases (hset x).mp hx with hx | hx
        · exact hanc x hx
        · exact hps x hx
      · intro x hx
        by_cases hold : x ∈ set
        · rcases hclosed x hold with hpending | hlinks
          · rcases List.mem_cons.mp hpending with rfl | hrest
            · refine .inr (fun p hp => (hset p).mpr (.inr ?_))
              rwa [Parent, parentsOf_eq hsn] at hp
            · exact .inl (List.mem_append_left new hrest)
          · exact .inr (fun p hp => (hset p).mpr (.inl (hlinks p hp)))
        · have hx := ((hset x).mp hx).resolve_left hold
          exact .inl (List.mem_append_right rest ((hnew.mem x).mpr ⟨hx, hold⟩))
      · rw [List.length_append]
        rw [List.length_cons] at hfuel
        omega

/-- What the search finds: the goal at the end of the earliest path, or that there is none. -/
def Found (s : Store) (goal : ObjectId → Prop) (b : ObjectId) : Option ObjectId → Prop
  | none => ∀ R t, Follows (parentsOf s) b R t → ¬goal t
  | some c => goal c ∧ ∃ P, Follows (parentsOf s) b P c ∧
      ∀ R t, Follows (parentsOf s) b R t → goal t → NoLater P R

theorem mergeBaseLoop_spec (hs : History s) {aAnc seen : BTreeSet ObjectId}
    {route : ObjectId → List Nat}
    (h : Search (parentsOf s) (· ∈ aAnc) b route queue (· ∈ seen))
    (hseen : ∀ x ∈ seen, IsSnapshot s x) {fuel : Nat}
    (hfuel : queue.length + (unmarked s seen).length < fuel) :
    ∃ r, mergeBaseLoop s aAnc fuel queue seen = .ok r ∧ Found s (· ∈ aAnc) b r := by
  induction fuel generalizing queue seen route with
  | zero => omega
  | succ fuel ih =>
    cases queue with
    | nil => exact ⟨none, rfl, fun R t hR => h.none hR⟩
    | cons y rest =>
      by_cases hy : y ∈ aAnc
      · refine ⟨some y, ?_, hy, route y, h.first⟩
        rw [mergeBaseLoop, if_pos (Std.ExtTreeSet.mem_iff_contains.mp hy)]
      · obtain ⟨sn, hsn⟩ := hseen y (h.queued y List.mem_cons_self)
        obtain ⟨new, hqueue, hnew, hset⟩ := enqueue_spec sn.parents rest seen
        have hps : ∀ p ∈ sn.parents, IsSnapshot s p := fun p hp =>
          hs.closed ⟨sn, hsn⟩ (by rwa [Parent, parentsOf_eq hsn])
        have hle := unmarked_le hnew hset hps
        have hstep : mergeBaseLoop s aAnc (fuel + 1) (y :: rest) seen =
            mergeBaseLoop s aAnc fuel (rest ++ new) (enqueue sn.parents rest seen).2 := by
          rw [mergeBaseLoop, if_neg (fun hc => hy (Std.ExtTreeSet.mem_iff_contains.mpr hc)),
            getSnapshot_eq hsn, ← hqueue]
          rfl
        have hnext : Search (parentsOf s) (· ∈ aAnc) b (extend (parentsOf s) y new route)
            (rest ++ new) (· ∈ (enqueue sn.parents rest seen).2) := by
          have hsearch := h.step ((parentsOf_eq hsn).symm ▸ hnew) hy
          rw [parentsOf_eq hsn] at hsearch
          simpa only [← hset] using hsearch
        rw [hstep]
        refine ih hnext (fun x hx => ?_) ?_
        · rcases (hset x).mp hx with hx | hx
          · exact hseen x hx
          · exact hps x hx
        · rw [List.length_append]
          rw [List.length_cons] at hfuel
          omega

theorem mem_singleton_set {x y : ObjectId} : x ∈ BTreeSet.ofList [y] ↔ x = y := by
  rw [BTreeSet.mem_ofList, List.mem_singleton]

theorem Found.unique {goal : ObjectId → Prop} {r r' : Option ObjectId} (h : Found s goal b r)
    (h' : Found s goal b r') : r = r' := by
  cases r with
  | none =>
    cases r' with
    | none => rfl
    | some c =>
      obtain ⟨hc, P, hP, -⟩ := h'
      exact absurd hc (h P c hP)
  | some c =>
    obtain ⟨hc, P, hP, hfirst⟩ := h
    cases r' with
    | none => exact absurd hc (h' P c hP)
    | some c' =>
      obtain ⟨hc', P', hP', hfirst'⟩ := h'
      obtain rfl := (hfirst P' c' hP' hc').antisymm (hfirst' P c hP hc)
      rw [hP.unique hP']

/-- With enough fuel the search ends, at the common ancestor of the earliest path. -/
theorem mergeBase_found (hs : History s) (ha : IsSnapshot s a) (hb : IsSnapshot s b) :
    ∃ r, (∃ n, ∀ fuel ≥ n, mergeBase fuel s a b = .ok r) ∧ Found s (Ancestor s a) b r := by
  have hone : ∀ {x y : ObjectId}, y ∈ BTreeSet.ofList [x] ↔ y = x := by
    intro x y
    rw [BTreeSet.mem_ofList, List.mem_singleton]
  have hrun : ∀ fuel, 1 + (unmarked s (BTreeSet.ofList [a])).length < fuel →
      1 + (unmarked s (BTreeSet.ofList [b])).length < fuel →
      ∃ r, mergeBase fuel s a b = .ok r ∧ Found s (Ancestor s a) b r := by
    intro fuel hfa hfb
    obtain ⟨set, hset, hmem⟩ := @ancestorsLoop_spec s a [a] (BTreeSet.ofList [a]) hs
      (hone.mpr rfl) (fun x hx => hone.mpr (List.mem_singleton.mp hx))
      (fun x hx => by
        obtain rfl := hone.mp hx
        exact ⟨ha, .refl⟩)
      (fun x hx => .inl (List.mem_singleton.mpr (hone.mp hx))) fuel hfa
    have hstart : Search (parentsOf s) (· ∈ set) b (fun _ => []) [b]
        (· ∈ BTreeSet.ofList [b]) := by
      have h := search_start (parentsOf s) (· ∈ set) b
      simpa only [hone] using h
    obtain ⟨r, hr, hfound⟩ := mergeBaseLoop_spec hs hstart
      (fun x hx => hone.mp hx ▸ hb) hfb
    refine ⟨r, ?_, ?_⟩
    · rw [mergeBase, ancestors, hset]
      exact hr
    · simpa only [hmem] using hfound
  obtain ⟨r, -, hfound⟩ := hrun ((unmarked s (BTreeSet.ofList [a])).length +
    (unmarked s (BTreeSet.ofList [b])).length + 2) (by omega) (by omega)
  refine ⟨r, ⟨(unmarked s (BTreeSet.ofList [a])).length +
    (unmarked s (BTreeSet.ofList [b])).length + 2, fun fuel hfuel => ?_⟩, hfound⟩
  obtain ⟨r', hr', hfound'⟩ := hrun fuel (by omega) (by omega)
  rw [hr', hfound'.unique hfound]

/-! ## When the base is lowest -/

/-- `None` exactly for snapshots without a common ancestor, and otherwise a lowest one. -/
def Meets (s : Store) (a b : ObjectId) (r : Option ObjectId) : Prop :=
  (r = none ↔ ¬∃ c, Common s a b c) ∧ ∀ c, r = some c → Lowest s a b c

/-- Each parent path from `b` to a common ancestor that is not lowest comes after one to a common
ancestor that is: it is longer, or as long and takes a later parent where they part. -/
def LowestFirst (s : Store) (a b : ObjectId) : Prop :=
  ∀ P c, Follows (parentsOf s) b P c → Common s a b c → ¬Lowest s a b c →
    ∃ Q d, Follows (parentsOf s) b Q d ∧ Lowest s a b d ∧ Earlier Q P

theorem Found.none_iff {r : Option ObjectId} (h : Found s (Ancestor s a) b r) :
    r = none ↔ ¬∃ c, Common s a b c := by
  cases r with
  | none =>
    refine iff_of_true rfl ?_
    rintro ⟨c, hac, hbc⟩
    obtain ⟨R, hR⟩ := ancestor_iff_follows.mp hbc
    exact h R c hR hac
  | some c =>
    obtain ⟨hac, P, hP, -⟩ := h
    refine iff_of_false (by simp) (fun hno => hno ⟨c, hac, ancestor_iff_follows.mpr ⟨P, hP⟩⟩)

theorem Found.meets_iff {r : Option ObjectId} (h : Found s (Ancestor s a) b r) :
    Meets s a b r ↔ LowestFirst s a b := by
  rw [Meets, and_iff_right h.none_iff]
  cases r with
  | none =>
    refine iff_of_true (fun c hc => by cases hc) (fun P c hP hc _ => ?_)
    exact absurd hc.1 (h P c hP)
  | some c =>
    obtain ⟨hac, P, hP, hfirst⟩ := h
    have hcommon : Common s a b c := ⟨hac, ancestor_iff_follows.mpr ⟨P, hP⟩⟩
    constructor
    · intro hlow Q d hQ hd hnot
      refine ⟨P, c, hP, hlow c rfl, ?_⟩
      rcases hfirst Q d hQ hd.1 with rfl | hlt
      · obtain rfl := hP.unique hQ
        exact absurd (hlow c rfl) hnot
      · exact hlt
    · rintro hcond d hd
      obtain rfl := Option.some.inj hd
      by_contra hnot
      obtain ⟨Q, d, hQ, hd, hlt⟩ := hcond P c hP hcommon hnot
      exact (hfirst Q d hQ hd.1.1).not_earlier hlt

/-- In a finite acyclic history the search ends with the same answer for every large enough
fuel, is right about `None`, and returns a lowest common ancestor exactly when the paths from `b`
meet a lowest one first. -/
theorem mergeBase_lowest_iff (s : Store) (hs : History s) (a b : ObjectId)
    (ha : IsSnapshot s a) (hb : IsSnapshot s b) :
    ∃ r, (∃ n, ∀ fuel ≥ n, mergeBase fuel s a b = .ok r) ∧
      (r = none ↔ ¬∃ c, Common s a b c) ∧ (Meets s a b r ↔ LowestFirst s a b) := by
  obtain ⟨r, hr, hfound⟩ := mergeBase_found hs ha hb
  exact ⟨r, hr, hfound.none_iff, hfound.meets_iff⟩

/-! ## A merge of a tip with its own distant ancestor -/

def testSnapshot (ps : List UInt8) : Object :=
  .snapshot ⟨testId 0, ps.map testId, "", 0, "", ∅, ⟨[], ∅⟩⟩

/-- Snapshots 3 and 4 come from 2 and 2 from 1; snapshot 5 merges 1 and 3. -/
def shortcut : Store :=
  testStore [(1, testSnapshot []), (2, testSnapshot [1]), (3, testSnapshot [2]),
    (4, testSnapshot [2]), (5, testSnapshot [1, 3])]

theorem mem_keys_of_isSnapshot (h : IsSnapshot s x) : x ∈ s.objects.keys := by
  obtain ⟨sn, hsn⟩ := h
  exact (BTreeMap.mem_keys_iff _ _).mpr ⟨_, hsn⟩

theorem mem_keys_of_parent (h : Parent s x y) : x ∈ s.objects.keys := by
  rw [Parent, parentsOf] at h
  rw [BTreeMap.mem_keys_iff]
  cases ho : s.objects[x]? with
  | some o => exact ⟨o, rfl⟩
  | none =>
    rw [ho] at h
    cases h

theorem shortcut_history : History shortcut := by
  have hstored : ∀ x ∈ shortcut.objects.keys, ∃ sn, shortcut.objects[x]? = some (.snapshot sn) := by
    intro x hx
    have hall : shortcut.objects.keys = [testId 1, testId 2, testId 3, testId 4, testId 5] := by
      decide
    rw [hall] at hx
    fin_cases hx <;> exact ⟨_, rfl⟩
  have hparents : ∀ x ∈ shortcut.objects.keys, ∀ p ∈ parentsOf shortcut x,
      p ∈ shortcut.objects.keys ∧ p.bytes < x.bytes := by decide
  refine ⟨fun {x p} _ hp => hstored p (hparents x (mem_keys_of_parent hp) p hp).1, fun x hx => ?_⟩
  have hlt : ∀ {x p}, TransGen (Parent shortcut) x p → p.bytes < x.bytes := by
    intro x p h
    induction h with
    | single hp => exact (hparents _ (mem_keys_of_parent hp) _ hp).2
    | tail _ hp ih => exact List.lt_trans (hparents _ (mem_keys_of_parent hp) _ hp).2 ih
  exact List.lt_irrefl _ (hlt hx)

/-- The search from 5 meets 1 before 2, a common ancestor whose parent is 1. -/
theorem mergeBase_shortcut : History shortcut ∧
    mergeBase 10 shortcut (testId 4) (testId 5) = .ok (some (testId 1)) ∧
    ¬Lowest shortcut (testId 4) (testId 5) (testId 1) := by
  have h42 : Parent shortcut (testId 4) (testId 2) := by
    change _ ∈ parentsOf _ _
    decide
  have h53 : Parent shortcut (testId 5) (testId 3) := by
    change _ ∈ parentsOf _ _
    decide
  have h32 : Parent shortcut (testId 3) (testId 2) := by
    change _ ∈ parentsOf _ _
    decide
  have h21 : Parent shortcut (testId 2) (testId 1) := by
    change _ ∈ parentsOf _ _
    decide
  refine ⟨shortcut_history, by decide, fun hlow => ?_⟩
  exact hlow.2 (testId 2) ⟨.single h42, .tail (.single h53) h32⟩ (.single h21)

/-- One parent each: the merge base of two children is their parent. -/
theorem mergeBase_lowest_iff_siblings : ∃ r, (∃ n, ∀ fuel ≥ n,
      mergeBase fuel shortcut (testId 3) (testId 4) = .ok r) ∧
    (r = none ↔ ¬∃ c, Common shortcut (testId 3) (testId 4) c) ∧
    (Meets shortcut (testId 3) (testId 4) r ↔ LowestFirst shortcut (testId 3) (testId 4)) :=
  mergeBase_lowest_iff shortcut shortcut_history (testId 3) (testId 4) ⟨_, rfl⟩ ⟨_, rfl⟩

end SrcControl.Ancestry
