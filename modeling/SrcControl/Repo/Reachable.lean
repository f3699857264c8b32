import SrcControl.Core.Store
import SrcControl.Lib.Worklist

/-!
# Reachability over the object graph

The walks that collect every object reachable from a set of tips: snapshots and
branch manifests with their parents, the trees below their roots, and the secrets
and sealed objects they name. The strict walk reads every tree; the partial walk
records as a gap what the store lacks.
-/

namespace SrcControl

open Worklist

/-- What a link says its target is. -/
inductive Role
  | tip
  | tree
  | blob
  | secret
  | sealed
deriving DecidableEq, Repr

def Role.fits : Role → Object → Bool
  | .tip, .snapshot _ => true
  | .tip, .manifest _ => true
  | .tree, .tree _ => true
  | .blob, .blob _ => true
  | .secret, .secret _ => true
  | .sealed, .sealed _ => true
  | _, _ => false

def EntryKind.role : EntryKind → Role
  | .blob => .blob
  | .tree => .tree

/-- The objects an object names, each with the kind it is named as. -/
def Object.links : Object → List (Role × ObjectId)
  | .snapshot s => s.parents.map (fun p => (.tip, p)) ++
      s.secrets.values.map (fun id => (.secret, id)) ++ [(.tree, s.root)]
  | .manifest m => m.closure.map (fun id => (.sealed, id)) ++
      (m.base :: m.anchors ++ m.prev.toList).map (fun id => (.tip, id))
  | .tree t => t.entries.map (fun e => (e.kind.role, e.id))
  | _ => []

namespace Store

def Link (s : Store) (a b : ObjectId) : Prop :=
  ∃ o, s.objects[a]? = some o ∧ ∃ r, (r, b) ∈ o.links

abbrev Reach (s : Store) : ObjectId → ObjectId → Prop := Worklist.Reach s.Link

/-- Links from the objects of `R` to stored objects name them as what they are. -/
def KindedOn (s : Store) (R : Set ObjectId) : Prop :=
  ∀ a ∈ R, ∀ o, s.objects[a]? = some o → ∀ r b, (r, b) ∈ o.links →
    ∀ o', s.objects[b]? = some o' → r.fits o' = true

/-- The full closure of `tip` is stored, every object as what it is named. -/
structure Whole (s : Store) (tip : ObjectId) : Prop where
  isTip : ∀ o, s.objects[tip]? = some o → Role.tip.fits o = true
  stored : ∀ x, s.Reach tip x → ∃ o, s.objects[x]? = some o
  kinded : s.KindedOn {x | s.Reach tip x}

end Store

namespace Reachable

/-- A set that contains what its stored objects name. -/
def LinkClosed (s : Store) (R : Set ObjectId) : Prop := ∀ a ∈ R, ∀ b, s.Link a b → b ∈ R

def marked (seen : BTreeSet ObjectId) : Set ObjectId := {x | x ∈ seen}

theorem marked_insert (seen : BTreeSet ObjectId) (id : ObjectId) :
    marked (seen.insert id) = insert id (marked seen) := by
  ext x
  exact BTreeSet.mem_insert seen id x

theorem leaf_links {r : Role} {o : Object} (h : r.fits o = true) (hr : r ≠ .tip) (ht : r ≠ .tree) :
    o.links = [] := by
  cases r <;> cases o <;> simp_all [Role.fits, Object.links]

theorem no_link_of_leaf {s : Store} {R : Set ObjectId} (hk : s.KindedOn R) {a b : ObjectId}
    {o : Object} {r : Role} (ha : a ∈ R) (ho : s.objects[a]? = some o) (hl : (r, b) ∈ o.links)
    (hr : r ≠ .tip) (ht : r ≠ .tree) (c : ObjectId) : ¬ s.Link b c := by
  rintro ⟨o', hb, r', hc⟩
  rw [leaf_links (hk a ha o ho r b hl o' hb) hr ht] at hc
  cases hc

/-! ## Marking -/

/-- `included.insert` of a list of leaves. -/
def markAll (ids : List ObjectId) (seen : BTreeSet ObjectId) : BTreeSet ObjectId :=
  ids.foldl (fun seen id => seen.insert id) seen

/-- Queue the ids seen for the first time. -/
def markNew (ids : List ObjectId) (queue : List ObjectId) (seen : BTreeSet ObjectId) :
    List ObjectId × BTreeSet ObjectId :=
  ids.foldl (fun (queue, seen) id =>
    if seen.contains id then (queue, seen) else (queue ++ [id], seen.insert id)) (queue, seen)

theorem mem_markAll {ids : List ObjectId} {seen : BTreeSet ObjectId} {x : ObjectId} :
    x ∈ markAll ids seen ↔ x ∈ ids ∨ x ∈ seen := by
  induction ids generalizing seen with
  | nil => simp [markAll]
  | cons id ids ih =>
    have hstep : markAll (id :: ids) seen = markAll ids (seen.insert id) := rfl
    rw [hstep, ih, BTreeSet.mem_insert, List.mem_cons]
    tauto

/-- The entries of one popped tree: blobs are marked, new subtrees pushed. -/
def markEntries (entries : List TreeEntry) (stack : List ObjectId) (seen : BTreeSet ObjectId) :
    List ObjectId × BTreeSet ObjectId :=
  entries.foldl (fun (stack, seen) e =>
    match e.kind with
    | .blob => (stack, seen.insert e.id)
    | .tree => if seen.contains e.id then (stack, seen) else (e.id :: stack, seen.insert e.id))
    (stack, seen)

/-- The ids are marked, and those seen for the first time are queued behind the others. -/
theorem markNew_spec (ids queue : List ObjectId) (seen : BTreeSet ObjectId) :
    (∀ y, y ∈ (markNew ids queue seen).2 ↔ y ∈ ids ∨ y ∈ seen) ∧
      ∃ new, (markNew ids queue seen).1 = queue ++ new ∧ new.Sublist ids ∧
        (∀ y ∈ new, y ∉ seen) ∧ ∀ y ∈ ids, y ∉ seen → y ∈ new := by
  induction ids generalizing queue seen with
  | nil => exact ⟨by simp [markNew], [], by simp [markNew], by simp, by simp, by simp⟩
  | cons x xs ih =>
    have hunfold : markNew (x :: xs) queue seen =
        if seen.contains x then markNew xs queue seen
        else markNew xs (queue ++ [x]) (seen.insert x) := by
      simp only [markNew, List.foldl_cons]
      split_ifs <;> rfl
    rw [hunfold]
    split_ifs with hc
    · have hx : x ∈ seen := Std.ExtTreeSet.contains_iff_mem.mp hc
      obtain ⟨hmem, new, hq, hsub, hfresh, hall⟩ := ih queue seen
      refine ⟨fun y => ?_, new, hq, hsub.cons x, hfresh, ?_⟩
      · rw [hmem, List.mem_cons]
        constructor
        · tauto
        · rintro ((rfl | h) | h)
          · exact .inr hx
          · exact .inl h
          · exact .inr h
      · intro y hy hn
        rcases List.mem_cons.mp hy with rfl | hy
        · exact absurd hx hn
        · exact hall y hy hn
    · have hx : x ∉ seen := fun h => hc (Std.ExtTreeSet.contains_iff_mem.mpr h)
      obtain ⟨hmem, new, hq, hsub, hfresh, hall⟩ := ih (queue ++ [x]) (seen.insert x)
      refine ⟨fun y => ?_, x :: new, ?_, hsub.cons_cons x, ?_, ?_⟩
      · rw [hmem, BTreeSet.mem_insert, List.mem_cons]
        tauto
      · rw [hq, List.append_assoc]
        rfl
      · intro y hy hin
        rcases List.mem_cons.mp hy with rfl | hy
        · exact hx hin
        · exact hfresh y hy ((BTreeSet.mem_insert _ _ _).mpr (.inr hin))
      · intro y hy hn
        rcases List.mem_cons.mp hy with rfl | hy
        · exact List.mem_cons_self ..
        · by_cases heq : y = x
          · exact heq ▸ List.mem_cons_self ..
          · refine List.mem_cons_of_mem _ (hall y hy fun hin => ?_)
            rcases (BTreeSet.mem_insert _ _ _).mp hin with h | h
            · exact heq h
            · exact hn h

/-- The ids of the entries are marked. A subtree seen for the first time is pushed, unless a
blob entry of the same list marked it, and nothing else is. -/
theorem markEntries_spec (entries : List TreeEntry) (stack : List ObjectId)
    (seen : BTreeSet ObjectId) :
    (∀ y, y ∈ (markEntries entries stack seen).2 ↔ y ∈ entries.map (·.id) ∨ y ∈ seen) ∧
      (∀ y ∈ stack, y ∈ (markEntries entries stack seen).1) ∧
      (∀ y ∈ (markEntries entries stack seen).1,
        y ∈ stack ∨ ∃ e ∈ entries, e.kind = .tree ∧ e.id = y) ∧
      ∀ y ∈ entries.map (·.id), y ∉ seen → y ∈ (markEntries entries stack seen).1 ∨
        ∃ e ∈ entries, e.kind = .blob ∧ e.id = y := by
  induction entries generalizing stack seen with
  | nil => simp [markEntries]
  | cons e es ih =>
    have hrest : ∀ {stack : List ObjectId} {y : ObjectId},
        (y ∈ stack ∨ ∃ e' ∈ es, e'.kind = .tree ∧ e'.id = y) →
        y ∈ stack ∨ ∃ e' ∈ e :: es, e'.kind = .tree ∧ e'.id = y :=
      fun h => h.imp_right fun ⟨e', he', h⟩ => ⟨e', List.mem_cons_of_mem _ he', h⟩
    simp only [markEntries, List.foldl_cons]
    cases hk : e.kind with
    | blob =>
      obtain ⟨hmem, hkeep, honly, hnew⟩ := ih stack (seen.insert e.id)
      refine ⟨fun y => ?_, hkeep, fun y hy => hrest (honly y hy), fun y hy hn => ?_⟩
      · refine (hmem y).trans ?_
        rw [BTreeSet.mem_insert, List.map_cons, List.mem_cons]
        tauto
      · by_cases heq : y = e.id
        · exact .inr ⟨e, List.mem_cons_self .., hk, heq.symm⟩
        · have hin : y ∈ es.map (·.id) := (List.mem_cons.mp hy).resolve_left heq
          have hout : y ∉ seen.insert e.id := by
            rw [BTreeSet.mem_insert]
            tauto
          exact (hnew y hin hout).imp_right fun ⟨e', he', h⟩ =>
            ⟨e', List.mem_cons_of_mem _ he', h⟩
    | tree =>
      simp only
      split_ifs with hc
      · have hseen : e.id ∈ seen := Std.ExtTreeSet.contains_iff_mem.mp hc
        obtain ⟨hmem, hkeep, honly, hnew⟩ := ih stack seen
        refine ⟨fun y => ?_, hkeep, fun y hy => hrest (honly y hy), fun y hy hn => ?_⟩
        · refine (hmem y).trans ?_
          rw [List.map_cons, List.mem_cons]
          constructor
          · tauto
          · rintro ((rfl | h) | h)
            · exact .inr hseen
            · exact .inl h
            · exact .inr h
        · rcases List.mem_cons.mp hy with rfl | hy
          · exact absurd hseen hn
          · exact (hnew y hy hn).imp_right fun ⟨e', he', h⟩ =>
              ⟨e', List.mem_cons_of_mem _ he', h⟩
      · obtain ⟨hmem, hkeep, honly, hnew⟩ := ih (e.id :: stack) (seen.insert e.id)
        refine ⟨fun y => ?_, fun y hy => hkeep y (.tail _ hy), fun y hy => ?_, fun y hy hn => ?_⟩
        · refine (hmem y).trans ?_
          rw [BTreeSet.mem_insert, List.map_cons, List.mem_cons]
          tauto
        · rcases hrest (honly y hy) with h | h
          · rcases List.mem_cons.mp h with rfl | h
            · exact .inr ⟨e, List.mem_cons_self .., hk, rfl⟩
            · exact .inl h
          · exact .inr h
        · by_cases heq : y = e.id
          · exact .inl (hkeep y (heq ▸ .head _))
          · have hin : y ∈ es.map (·.id) := (List.mem_cons.mp hy).resolve_left heq
            have hout : y ∉ seen.insert e.id := by
              rw [BTreeSet.mem_insert]
              tauto
            exact (hnew y hin hout).imp_right fun ⟨e', he', h⟩ =>
              ⟨e', List.mem_cons_of_mem _ he', h⟩

/-- The marked ids together with those recorded as absent. -/
def known (seen : BTreeSet ObjectId) (absent : Set ObjectId) : Set ObjectId := marked seen ∪ absent

/-- The ids `ids`, all in `R`, become known while the queue and the debt grow in step. -/
structure Grown (s : Store) (R : Set ObjectId) (ids queue : List ObjectId) (S : Set ObjectId)
    (queue' : List ObjectId) (S' : Set ObjectId) : Prop where
  marks : ∀ x ∈ ids, x ∈ S'
  kept : S ⊆ S'
  within : S ⊆ R → S' ⊆ R
  queueWithin : (∀ x ∈ queue, x ∈ R) → ∀ x ∈ queue', x ∈ R
  closed : ∀ pending, ClosedBut s.Link (pending ∪ {x | x ∈ queue}) S →
    ClosedBut s.Link (pending ∪ {x | x ∈ queue'}) S'

namespace Grown

variable {s : Store} {R S S' S'' : Set ObjectId} {ids ids' queue queue' queue'' : List ObjectId}

theorem refl : Grown s R [] queue S queue S :=
  ⟨by simp, fun _ h => h, fun h => h, fun h => h, fun _ h => h⟩

theorem trans (h : Grown s R ids queue S queue' S') (h' : Grown s R ids' queue' S' queue'' S'') :
    Grown s R (ids ++ ids') queue S queue'' S'' where
  marks x hx := by
    rcases List.mem_append.mp hx with hx | hx
    · exact h'.kept (h.marks x hx)
    · exact h'.marks x hx
  kept x hx := h'.kept (h.kept hx)
  within hw := h'.within (h.within hw)
  queueWithin hw := h'.queueWithin (h.queueWithin hw)
  closed pending hc := h'.closed pending (h.closed pending hc)

theorem leaf {id : ObjectId} (hid : id ∈ R) (hl : ∀ c, ¬ s.Link id c) :
    Grown s R [id] queue S queue (insert id S) where
  marks _ hx := .inl (List.mem_singleton.mp hx)
  kept := Set.subset_insert id S
  within hw := Set.insert_subset hid hw
  queueWithin hw := hw
  closed _ hc := hc.insert_leaf hl

theorem new {id : ObjectId} (hid : id ∈ R) (hq : ∀ x, x ∈ queue' ↔ x = id ∨ x ∈ queue) :
    Grown s R [id] queue S queue' (insert id S) where
  marks _ hx := .inl (List.mem_singleton.mp hx)
  kept := Set.subset_insert id S
  within hw := Set.insert_subset hid hw
  queueWithin hw x hx := by
    rcases (hq x).mp hx with rfl | hx
    · exact hid
    · exact hw x hx
  closed pending hc := by
    refine hc.insert_pending.mono ?_
    rintro y (rfl | hy | hy)
    · exact .inr ((hq y).mpr (.inl rfl))
    · exact .inl hy
    · exact .inr ((hq y).mpr (.inr hy))

theorem old {id : ObjectId} (hid : id ∈ S) : Grown s R [id] queue S queue S where
  marks x hx := by rwa [List.mem_singleton.mp hx]
  kept _ hx := hx
  within hw := hw
  queueWithin hw := hw
  closed _ hc := hc

end Grown

theorem known_insert (seen : BTreeSet ObjectId) (absent : Set ObjectId) (id : ObjectId) :
    known (seen.insert id) absent = insert id (known seen absent) := by
  rw [known, marked_insert, Set.insert_union, known]

theorem known_of_contains {seen : BTreeSet ObjectId} {absent : Set ObjectId} {id : ObjectId}
    (h : seen.contains id = true) : id ∈ known seen absent :=
  .inl (Std.ExtTreeSet.contains_iff_mem.mp h)

section Marks

variable {s : Store} {R G : Set ObjectId}

theorem markAll_grown (ids : List ObjectId) (h : ∀ x ∈ ids, x ∈ R ∧ ∀ c, ¬ s.Link x c)
    (queue : List ObjectId) (seen : BTreeSet ObjectId) :
    Grown s R ids queue (known seen G) queue (known (markAll ids seen) G) := by
  induction ids generalizing seen with
  | nil => exact .refl
  | cons x xs ih =>
    have hx := h x (by simp)
    have hstep : Grown s R [x] queue (known seen G) queue _ := .leaf hx.1 hx.2
    rw [← known_insert] at hstep
    exact hstep.trans (ih (fun y hy => h y (by simp [hy])) (seen.insert x))

theorem markNew_grown (ids : List ObjectId) (h : ∀ x ∈ ids, x ∈ R) (queue : List ObjectId)
    (seen : BTreeSet ObjectId) :
    Grown s R ids queue (known seen G) (markNew ids queue seen).1
      (known (markNew ids queue seen).2 G) := by
  induction ids generalizing queue seen with
  | nil => exact .refl
  | cons x xs ih =>
    have hxs : ∀ y ∈ xs, y ∈ R := fun y hy => h y (by simp [hy])
    simp only [markNew, List.foldl_cons]
    split_ifs with hc
    · exact (Grown.old (known_of_contains hc)).trans (ih hxs queue seen)
    · have hstep : Grown s R [x] queue (known seen G) (queue ++ [x]) _ :=
        .new (h x (by simp)) (by simp [or_comm])
      rw [← known_insert] at hstep
      exact hstep.trans (ih hxs _ _)

theorem markEntries_grown {entries : List TreeEntry} (h : ∀ e ∈ entries, e.id ∈ R)
    (hl : ∀ e ∈ entries, e.kind = .blob → ∀ c, ¬ s.Link e.id c) (stack : List ObjectId)
    (seen : BTreeSet ObjectId) :
    Grown s R (entries.map (·.id)) stack (known seen G) (markEntries entries stack seen).1
      (known (markEntries entries stack seen).2 G) := by
  induction entries generalizing stack seen with
  | nil => exact .refl
  | cons e es ih =>
    have hes : ∀ e' ∈ es, e'.id ∈ R := fun e' h' => h e' (by simp [h'])
    have hles : ∀ e' ∈ es, e'.kind = .blob → ∀ c, ¬ s.Link e'.id c :=
      fun e' h' => hl e' (by simp [h'])
    simp only [markEntries, List.foldl_cons]
    cases hk : e.kind with
    | blob =>
      have hstep : Grown s R [e.id] stack (known seen G) stack _ :=
        .leaf (h e (by simp)) (hl e (by simp) hk)
      rw [← known_insert] at hstep
      exact hstep.trans (ih hes hles stack _)
    | tree =>
      simp only
      split_ifs with hc
      · exact (Grown.old (known_of_contains hc)).trans (ih hes hles stack seen)
      · have hstep : Grown s R [e.id] stack (known seen G) (e.id :: stack) _ :=
          .new (h e (by simp)) (by simp)
        rw [← known_insert] at hstep
        exact hstep.trans (ih hes hles _ _)

end Marks

/-! ## The strict walk -/

def walkTreeLoop (s : Store) :
    Nat → List ObjectId → BTreeSet ObjectId → Except Error (BTreeSet ObjectId)
  | 0, _, _ => .error .fuel
  | _ + 1, [], seen => .ok seen
  | fuel + 1, id :: stack, seen => do
    match ← s.get id with
    | .tree t =>
      let (stack, seen) := markEntries t.entries stack seen
      walkTreeLoop s fuel stack seen
    | _ => .error (.badRef ("expected tree " ++ id.short))

/-- `walk_tree`: a root already seen has been expanded. -/
def walkTree (s : Store) (fuel : Nat) (root : ObjectId) (seen : BTreeSet ObjectId) :
    Except Error (BTreeSet ObjectId) :=
  if seen.contains root then .ok seen else walkTreeLoop s fuel [root] (seen.insert root)

/-- The snapshot-level walk shared by both reachabilities; `walkRoot` owns the tree
descent and its state. -/
def walkSnapshots {σ : Type} (s : Store)
    (walkRoot : ObjectId → ObjectId → BTreeSet ObjectId → σ → Except Error (BTreeSet ObjectId × σ)) :
    Nat → List ObjectId → BTreeSet ObjectId → σ → Except Error (BTreeSet ObjectId × σ)
  | 0, _, _, _ => .error .fuel
  | _ + 1, [], included, st => .ok (included, st)
  | fuel + 1, sid :: queue, included, st => do
    match ← s.get sid with
    | .snapshot snap =>
      let (queue, included) := markNew snap.parents queue included
      let included := markAll snap.secrets.values included
      let (included, st) ← walkRoot sid snap.root included st
      walkSnapshots s walkRoot fuel queue included st
    | .manifest m =>
      let included := markAll m.closure included
      let (queue, included) := markNew (m.base :: m.anchors ++ m.prev.toList) queue included
      walkSnapshots s walkRoot fuel queue included st
    | _ => .error (.badRef ("expected snapshot " ++ sid.short))

def reachableObjects (fuel : Nat) (s : Store) (tips : List ObjectId) :
    Except Error (BTreeSet ObjectId) := do
  let (queue, included) := markNew tips [] ∅
  let (included, _) ← walkSnapshots s
    (fun _ root included (_ : Unit) => do pure (← walkTree s fuel root included, ()))
    fuel queue included ()
  pure included

/-- One popped node: once its links are known it leaves the queue for good. -/
theorem Grown.settle {s : Store} {R S S' S'' : Set ObjectId} {x : ObjectId} {o : Object}
    {stack stack' ids : List ObjectId} (hg : Grown s R ids stack S stack' S')
    (ho : s.objects[x]? = some o) (hids : ∀ l ∈ o.links, l.2 ∈ ids)
    (hrest : Grown s R [] stack' S' [] S'') : Grown s R [] (x :: stack) S [] S'' where
  marks := by simp
  kept _ hy := hrest.kept (hg.kept hy)
  within hw := hrest.within (hg.within hw)
  queueWithin := by simp
  closed P hc := by
    have hopen : ClosedBut s.Link (insert x P ∪ {y | y ∈ stack}) S := by
      refine hc.mono ?_
      rintro y (hy | hy)
      · exact .inl (.inr hy)
      · rcases List.mem_cons.mp hy with rfl | hy
        · exact .inl (.inl rfl)
        · exact .inr hy
    refine hrest.closed P ((hg.closed _ hopen).settle (x := x) ?_ ?_)
    · rintro y ((rfl | hy) | hy)
      · exact .inl rfl
      · exact .inr (.inl hy)
      · exact .inr (.inr hy)
    · rintro y ⟨o', ho', r, hl⟩
      rw [ho] at ho'
      cases ho'
      exact hg.marks y (hids _ hl)

/-- A descent that drains its own stack leaves any other queue alone. -/
theorem Grown.frame {s : Store} {R S S' : Set ObjectId} {ids : List ObjectId}
    (h : Grown s R ids [] S [] S') (queue : List ObjectId) : Grown s R ids queue S queue S' where
  marks := h.marks
  kept := h.kept
  within := h.within
  queueWithin hq := hq
  closed P hP := by
    have hc := h.closed (P ∪ {x | x ∈ queue}) (by simpa using hP)
    simpa using hc

section Walk

variable {s : Store} {R : Set ObjectId}

theorem mem_of_link (hR : LinkClosed s R) {a : ObjectId} (ha : a ∈ R) {o : Object}
    (ho : s.objects[a]? = some o) {r : Role} {b : ObjectId} (hl : (r, b) ∈ o.links) : b ∈ R :=
  hR a ha b ⟨o, ho, r, hl⟩

theorem tree_entry_mem (hR : LinkClosed s R) {a : ObjectId} (ha : a ∈ R) {t : Tree}
    (ho : s.objects[a]? = some (.tree t)) {e : TreeEntry} (he : e ∈ t.entries) : e.id ∈ R :=
  mem_of_link hR ha ho (r := e.kind.role) (List.mem_map.mpr ⟨e, he, rfl⟩)

theorem blob_entry_leaf (hk : s.KindedOn R) {a : ObjectId} (ha : a ∈ R) {t : Tree}
    (ho : s.objects[a]? = some (.tree t)) {e : TreeEntry} (he : e ∈ t.entries)
    (hb : e.kind = .blob) (c : ObjectId) : ¬ s.Link e.id c :=
  no_link_of_leaf hk ha ho (r := .blob) (List.mem_map.mpr ⟨e, he, by rw [hb]; rfl⟩) (by simp)
    (by simp) c

theorem tree_links_mem (t : Tree) : ∀ l ∈ (Object.tree t).links, l.2 ∈ t.entries.map (·.id) := by
  intro l hl
  obtain ⟨e, he, rfl⟩ := List.mem_map.mp hl
  exact List.mem_map.mpr ⟨e, he, rfl⟩

theorem walkTreeLoop_grown (hR : LinkClosed s R) (hk : s.KindedOn R) {G : Set ObjectId}
    {fuel : Nat} {stack : List ObjectId} {seen seen' : BTreeSet ObjectId}
    (h : walkTreeLoop s fuel stack seen = .ok seen') (hstack : ∀ x ∈ stack, x ∈ R) :
    Grown s R [] stack (known seen G) [] (known seen' G) := by
  induction fuel generalizing stack seen with
  | zero => cases h
  | succ fuel ih =>
    cases stack with
    | nil =>
      cases h
      exact .refl
    | cons x stack =>
      have hx : x ∈ R := hstack x (by simp)
      simp only [walkTreeLoop] at h
      cases hget : s.get x with
      | error e =>
        rw [hget] at h
        cases h
      | ok o =>
        rw [hget] at h
        have ho := Store.get_eq_ok_iff.mp hget
        cases o with
        | tree t =>
          have hg := markEntries_grown (G := G) (fun e he => tree_entry_mem hR hx ho he)
            (fun e he => blob_entry_leaf hk hx ho he) stack seen
          have hrest := ih h (hg.queueWithin (fun y hy => hstack y (by simp [hy])))
          exact hg.settle ho (tree_links_mem t) hrest
        | _ => cases h

theorem walkTree_grown (hR : LinkClosed s R) (hk : s.KindedOn R) {G : Set ObjectId} {fuel : Nat}
    {root : ObjectId} {seen seen' : BTreeSet ObjectId} (h : walkTree s fuel root seen = .ok seen')
    (hroot : root ∈ R) (queue : List ObjectId) :
    Grown s R [root] queue (known seen G) queue (known seen' G) := by
  unfold walkTree at h
  split_ifs at h with hc
  · cases h
    exact .old (known_of_contains hc)
  · have hloop := walkTreeLoop_grown (G := G) hR hk h (by simpa using hroot)
    have hstart : Grown s R [root] [] (known seen G) [root] (insert root (known seen G)) :=
      .new hroot (by simp)
    rw [← known_insert] at hstart
    exact (hstart.trans hloop).frame queue

/-- The snapshot walk over any tree descent that accounts for the root it is given. -/
theorem walkSnapshots_grown {σ : Type} {G : σ → Set ObjectId}
    {walkRoot : ObjectId → ObjectId → BTreeSet ObjectId → σ → Except Error (BTreeSet ObjectId × σ)}
    (hR : LinkClosed s R) (hk : s.KindedOn R)
    (hwalk : ∀ sid root inc st inc' st', walkRoot sid root inc st = .ok (inc', st') → root ∈ R →
      ∀ queue, Grown s R [root] queue (known inc (G st)) queue (known inc' (G st')))
    {fuel : Nat} {queue : List ObjectId} {inc inc' : BTreeSet ObjectId} {st st' : σ}
    (h : walkSnapshots s walkRoot fuel queue inc st = .ok (inc', st'))
    (hqueue : ∀ x ∈ queue, x ∈ R) :
    Grown s R [] queue (known inc (G st)) [] (known inc' (G st')) := by
  induction fuel generalizing queue inc st with
  | zero => cases h
  | succ fuel ih =>
    cases queue with
    | nil =>
      cases h
      exact .refl
    | cons x queue =>
      have hx : x ∈ R := hqueue x (by simp)
      have hq : ∀ y ∈ queue, y ∈ R := fun y hy => hqueue y (by simp [hy])
      simp only [walkSnapshots] at h
      cases hget : s.get x with
      | error e =>
        rw [hget] at h
        cases h
      | ok o =>
        rw [hget] at h
        have ho := Store.get_eq_ok_iff.mp hget
        cases o with
        | snapshot snap =>
          simp only [bind, Except.bind] at h
          split at h
          · cases h
          · next out hroot =>
            obtain ⟨inc₃, st₃⟩ := out
            have h₁ := markNew_grown (s := s) (R := R) (G := G st) snap.parents
              (fun y hy => mem_of_link hR hx ho (r := .tip) (by simp [Object.links, hy])) queue inc
            have h₂ := h₁.trans (markAll_grown (G := G st) snap.secrets.values
              (fun y hy => ⟨mem_of_link hR hx ho (r := .secret) (by simp [Object.links, hy]),
                no_link_of_leaf hk hx ho (r := .secret) (by simp [Object.links, hy]) (by simp)
                  (by simp)⟩) _ _)
            have h₃ := h₂.trans (hwalk _ _ _ _ _ _ hroot
              (mem_of_link hR hx ho (r := .tree) (by simp [Object.links])) _)
            refine h₃.settle ho ?_ (ih h (h₃.queueWithin hq))
            rintro ⟨r, y⟩ hl
            simp only [Object.links, List.mem_append, List.mem_map, List.mem_singleton,
              Prod.mk.injEq] at hl ⊢
            rcases hl with (⟨z, hz, _, rfl⟩ | ⟨z, hz, _, rfl⟩) | ⟨_, rfl⟩
            · exact .inl (.inl hz)
            · exact .inl (.inr hz)
            · exact .inr rfl
        | manifest m =>
          have h₁ := markAll_grown (s := s) (R := R) (G := G st) m.closure
            (fun y hy => ⟨mem_of_link hR hx ho (r := .sealed) (by simp [Object.links, hy]),
              no_link_of_leaf hk hx ho (r := .sealed) (by simp [Object.links, hy]) (by simp)
                (by simp)⟩) queue inc
          have h₂ := h₁.trans (markNew_grown (G := G st)
            (m.base :: m.anchors ++ m.prev.toList) (fun y hy => mem_of_link hR hx ho
              (r := .tip) (List.mem_append_right _ (List.mem_map.mpr ⟨y, hy, rfl⟩))) _ _)
          refine h₂.settle ho ?_ (ih h (h₂.queueWithin hq))
          rintro ⟨r, y⟩ hl
          rcases List.mem_append.mp hl with hl | hl
          · obtain ⟨z, hz, he⟩ := List.mem_map.mp hl
            cases he
            exact List.mem_append_left _ hz
          · obtain ⟨z, hz, he⟩ := List.mem_map.mp hl
            cases he
            exact List.mem_append_right _ hz
        | _ => cases h

end Walk

/-- What the tips reach through stored objects. -/
def reachSet (s : Store) (tips : List ObjectId) : Set ObjectId := {x | ∃ t ∈ tips, s.Reach t x}

theorem reachSet_closed (s : Store) (tips : List ObjectId) : LinkClosed s (reachSet s tips) :=
  fun _ ⟨t, ht, hr⟩ _ hl => ⟨t, ht, hr.tail hl⟩

/-- A finished walk knows exactly what the tips reach. -/
theorem walk_spec {σ : Type} {G : σ → Set ObjectId}
    {walkRoot : ObjectId → ObjectId → BTreeSet ObjectId → σ → Except Error (BTreeSet ObjectId × σ)}
    {s : Store} {tips : List ObjectId} {fuel : Nat} {st st' : σ} {inc' : BTreeSet ObjectId}
    (hst : G st = ∅) (hk : s.KindedOn (reachSet s tips))
    (hwalk : ∀ sid root inc st inc' st', walkRoot sid root inc st = .ok (inc', st') →
      root ∈ reachSet s tips → ∀ queue,
        Grown s (reachSet s tips) [root] queue (known inc (G st)) queue (known inc' (G st')))
    (h : walkSnapshots s walkRoot fuel (markNew tips [] ∅).1 (markNew tips [] ∅).2 st =
      .ok (inc', st')) (x : ObjectId) :
    x ∈ inc' ∨ x ∈ G st' ↔ x ∈ reachSet s tips := by
  have htips : ∀ t ∈ tips, t ∈ reachSet s tips := fun t ht => ⟨t, ht, .refl⟩
  have hstart := markNew_grown (s := s) (G := G st) tips htips [] ∅
  have hall := hstart.trans (walkSnapshots_grown (reachSet_closed s tips) hk hwalk h
    (hstart.queueWithin (by simp)))
  have hempty : known (∅ : BTreeSet ObjectId) (G st) = ∅ := by
    ext y
    simp [known, marked, hst]
  rw [hempty] at hall
  constructor
  · intro hx
    exact hall.within (by simp) hx
  · rintro ⟨t, ht, hr⟩
    have hc : ClosedBut s.Link ∅ (known inc' (G st')) := by
      have hend := hall.closed ∅ (fun y hy => hy.elim)
      simpa using hend
    exact hc.reach (hall.marks t (by simp [ht])) hr

/-- A finished strict walk marks exactly what the tips reach. -/
theorem reachableObjects_spec {fuel : Nat} {s : Store} {tips : List ObjectId}
    {seen : BTreeSet ObjectId} (h : reachableObjects fuel s tips = .ok seen)
    (hk : s.KindedOn (reachSet s tips)) (x : ObjectId) : x ∈ seen ↔ x ∈ reachSet s tips := by
  simp only [reachableObjects, bind, Except.bind] at h
  split at h
  · cases h
  · next out hwalk =>
    obtain ⟨inc, u⟩ := out
    cases h
    have hspec := walk_spec (G := fun _ : Unit => ∅) rfl hk
      (fun sid root inc st inc' st' hrun hroot queue => by
        cases hw : walkTree s fuel root inc with
        | error e =>
          rw [hw] at hrun
          cases hrun
        | ok seen =>
          rw [hw] at hrun
          cases hrun
          exact walkTree_grown (reachSet_closed s tips) hk hw hroot queue) hwalk x
    simpa using hspec

end Reachable

end SrcControl
