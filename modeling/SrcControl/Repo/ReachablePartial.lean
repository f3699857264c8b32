import SrcControl.Repo.Reachable

/-!
# Presence-based reachability

The walk a partial clone runs over its own store: it descends every tree the store
holds and records an absent child as a gap together with the tree that names it.
Snapshots, manifests and the ids they name directly are taken without a presence
check, as the strict walk takes them.
-/

namespace SrcControl

namespace Reachable

/-- `PartialReach`: what the walk reached and holds, and each gap with its referrer. -/
structure PartialReach where
  present : BTreeSet ObjectId
  gaps : BTreeMap ObjectId ObjectId

def gapped (gaps : BTreeMap ObjectId ObjectId) : Set ObjectId := {x | x ∈ gaps}

/-- The stack of the descent, with what it has marked and recorded. -/
abbrev PartialWalk := List ObjectId × BTreeSet ObjectId × BTreeMap ObjectId ObjectId

/-- One entry of the popped `tree`: an absent one becomes a gap of it. -/
def markPresentEntry (s : Store) (tree : ObjectId) : PartialWalk → TreeEntry → PartialWalk
  | (stack, present, gaps), e =>
    if s.contains e.id then
      match e.kind with
      | .blob => (stack, present.insert e.id, gaps)
      | .tree =>
        if present.contains e.id then (stack, present, gaps)
        else (e.id :: stack, present.insert e.id, gaps)
    else (stack, present, gaps.insertIfNew e.id tree)

def markPresent (s : Store) (tree : ObjectId) (entries : List TreeEntry) (w : PartialWalk) :
    PartialWalk :=
  entries.foldl (markPresentEntry s tree) w

def walkTreePartialLoop (s : Store) :
    Nat → PartialWalk → Except Error (BTreeSet ObjectId × BTreeMap ObjectId ObjectId)
  | 0, _ => .error .fuel
  | _ + 1, ([], present, gaps) => .ok (present, gaps)
  | fuel + 1, (id :: stack, present, gaps) => do
    match ← s.get id with
    | .tree t => walkTreePartialLoop s fuel (markPresent s id t.entries (stack, present, gaps))
    | _ => .error (.badRef ("expected tree " ++ id.short))

def walkTreePartial (s : Store) (fuel : Nat) (referrer root : ObjectId)
    (present : BTreeSet ObjectId) (gaps : BTreeMap ObjectId ObjectId) :
    Except Error (BTreeSet ObjectId × BTreeMap ObjectId ObjectId) :=
  if s.contains root then
    if present.contains root then .ok (present, gaps)
    else walkTreePartialLoop s fuel ([root], present.insert root, gaps)
  else .ok (present, gaps.insertIfNew root referrer)

def reachableObjectsPartial (fuel : Nat) (s : Store) (tips : List ObjectId) :
    Except Error PartialReach := do
  let (queue, present) := markNew tips [] ∅
  let (present, gaps) ← walkSnapshots s (walkTreePartial s fuel) fuel queue present ∅
  pure ⟨present, gaps⟩

theorem known_gap (present : BTreeSet ObjectId) (gaps : BTreeMap ObjectId ObjectId)
    (id referrer : ObjectId) :
    known present (gapped (gaps.insertIfNew id referrer)) = insert id (known present (gapped gaps)) := by
  ext x
  have hx : x ∈ gaps.insertIfNew id referrer ↔ id = x ∨ x ∈ gaps := by
    rw [Std.ExtTreeMap.mem_insertIfNew, Std.LawfulEqCmp.compare_eq_iff_eq]
  simp only [known, gapped, Set.mem_union, Set.mem_ofPred_eq, Set.mem_insert_iff, hx, eq_comm]
  tauto

theorem no_link_of_absent {s : Store} {id : ObjectId} (h : s.contains id = false) (c : ObjectId) :
    ¬ s.Link id c := by
  rintro ⟨o, ho, _⟩
  rw [Store.contains_of_get (Store.get_eq_ok_iff.mpr ho)] at h
  cases h

section Walk

variable {s : Store} {R : Set ObjectId}

/-- What a partial descent knows: the present objects and the gaps. -/
def PartialWalk.known (w : PartialWalk) : Set ObjectId := Reachable.known w.2.1 (gapped w.2.2)

theorem markPresentEntry_grown {tree : ObjectId} {e : TreeEntry} (h : e.id ∈ R)
    (hl : e.kind = .blob → ∀ c, ¬ s.Link e.id c) (w : PartialWalk) :
    Grown s R [e.id] w.1 w.known (markPresentEntry s tree w e).1
      (markPresentEntry s tree w e).known := by
  obtain ⟨stack, present, gaps⟩ := w
  cases hc : s.contains e.id with
  | false =>
    simp only [markPresentEntry, PartialWalk.known, hc, Bool.false_eq_true, if_false, known_gap]
    exact .leaf h (no_link_of_absent hc)
  | true =>
    cases hk : e.kind with
    | blob =>
      simp only [markPresentEntry, PartialWalk.known, hc, hk, if_true, known_insert]
      exact .leaf h (hl hk)
    | tree =>
      simp only [markPresentEntry, hc, hk, if_true]
      split_ifs with hp
      · exact .old (known_of_contains hp)
      · simp only [PartialWalk.known, known_insert]
        exact .new h (by simp)

theorem markPresent_grown {tree : ObjectId} {entries : List TreeEntry}
    (h : ∀ e ∈ entries, e.id ∈ R) (hl : ∀ e ∈ entries, e.kind = .blob → ∀ c, ¬ s.Link e.id c)
    (w : PartialWalk) :
    Grown s R (entries.map (·.id)) w.1 w.known (markPresent s tree entries w).1
      (markPresent s tree entries w).known := by
  induction entries generalizing w with
  | nil => exact .refl
  | cons e es ih =>
    have hstep := @markPresentEntry_grown s R tree e (h e (by simp)) (hl e (by simp)) w
    exact hstep.trans (ih (fun e' h' => h e' (by simp [h'])) (fun e' h' => hl e' (by simp [h'])) _)

theorem walkTreePartialLoop_grown (hR : LinkClosed s R) (hk : s.KindedOn R) {fuel : Nat}
    {w : PartialWalk} {present' : BTreeSet ObjectId} {gaps' : BTreeMap ObjectId ObjectId}
    (h : walkTreePartialLoop s fuel w = .ok (present', gaps')) (hstack : ∀ x ∈ w.1, x ∈ R) :
    Grown s R [] w.1 w.known [] (known present' (gapped gaps')) := by
  induction fuel generalizing w with
  | zero => cases h
  | succ fuel ih =>
    obtain ⟨stack, present, gaps⟩ := w
    cases stack with
    | nil =>
      cases h
      exact .refl
    | cons x stack =>
      have hx : x ∈ R := hstack x (by simp)
      simp only [walkTreePartialLoop] at h
      cases hget : s.get x with
      | error e =>
        rw [hget] at h
        cases h
      | ok o =>
        rw [hget] at h
        have ho := Store.get_eq_ok_iff.mp hget
        cases o with
        | tree t =>
          have hg := @markPresent_grown s R x t.entries (fun e he => tree_entry_mem hR hx ho he)
            (fun e he => blob_entry_leaf hk hx ho he) (stack, present, gaps)
          have hrest := ih h (hg.queueWithin (fun y hy => hstack y (by simp [hy])))
          exact hg.settle ho (tree_links_mem t) hrest
        | _ => cases h

theorem walkTreePartial_grown (hR : LinkClosed s R) (hk : s.KindedOn R) {fuel : Nat}
    {referrer root : ObjectId} {present present' : BTreeSet ObjectId}
    {gaps gaps' : BTreeMap ObjectId ObjectId}
    (h : walkTreePartial s fuel referrer root present gaps = .ok (present', gaps'))
    (hroot : root ∈ R) (queue : List ObjectId) :
    Grown s R [root] queue (known present (gapped gaps)) queue (known present' (gapped gaps')) := by
  unfold walkTreePartial at h
  split_ifs at h with hc hp
  · cases h
    exact .old (known_of_contains hp)
  · have hloop := walkTreePartialLoop_grown hR hk h (by simpa using hroot)
    have hstart : Grown s R [root] [] (known present (gapped gaps)) [root] _ :=
      .new hroot (by simp)
    rw [← known_insert] at hstart
    exact (hstart.trans hloop).frame queue
  · cases h
    rw [known_gap]
    exact .leaf hroot (no_link_of_absent (by simpa using hc))

end Walk

/-- A finished partial walk marks or records exactly what the tips reach. -/
theorem reachableObjectsPartial_spec {fuel : Nat} {s : Store} {tips : List ObjectId}
    {r : PartialReach} (h : reachableObjectsPartial fuel s tips = .ok r)
    (hk : s.KindedOn (reachSet s tips)) (x : ObjectId) :
    x ∈ r.present ∨ x ∈ r.gaps ↔ x ∈ reachSet s tips := by
  simp only [reachableObjectsPartial, bind, Except.bind] at h
  split at h
  · cases h
  · next out hwalk =>
    obtain ⟨present, gaps⟩ := out
    cases h
    exact walk_spec (G := gapped) (by ext; simp [gapped]) hk
      (fun sid root inc st inc' st' hrun hroot queue =>
        walkTreePartial_grown (reachSet_closed s tips) hk hrun hroot queue) hwalk x

end Reachable

end SrcControl
