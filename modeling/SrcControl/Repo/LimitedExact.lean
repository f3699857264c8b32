import SrcControl.Repo.LimitedWalk

/-!
# What a filtered, size-limited walk takes

The declarative meaning of the walk, and its proof over whole runs. Every tip is walked
before any other snapshot, so the expansions that a later, stricter walk skips are those an
exempt walk has made.
-/

namespace SrcControl

open SlashPath

namespace Store

/-- Every id is of one kind: stored as that kind, and named as it by everything stored. -/
structure Kinded (s : Store) (kind : ObjectId → Role) : Prop where
  fits : ∀ (id : ObjectId) (o : Object), s.objects[id]? = some o → (kind id).fits o = true
  links : ∀ (id : ObjectId) (o : Object), s.objects[id]? = some o →
    ∀ r b, (r, b) ∈ o.links → kind b = r

def Acyclic (s : Store) : Prop := ∀ a, ¬ Relation.TransGen s.Link a a

/-- The snapshots and manifests a snapshot or manifest names. -/
def SnapLink (s : Store) (a b : ObjectId) : Prop :=
  ∃ o, s.objects[a]? = some o ∧ (Role.tip, b) ∈ o.links

end Store

namespace Reachable

open SizeGate

/-- The snapshots and manifests reachable from the tips. -/
def history (s : Store) (tips : List ObjectId) : Set ObjectId :=
  {x | ∃ t ∈ tips, Worklist.Reach s.SnapLink t x}

/-- The nodes that descents from the root trees of the snapshots in `X` pass. -/
def rootNodes (s : Store) (f : PrefixFilter) (X : Set ObjectId) : Set Node :=
  {n | ∃ x ∈ X, ∃ sn, s.objects[x]? = some (.snapshot sn) ∧
    Worklist.Reach (NodeLink s f) (sn.root, "") n}

/-- The size rule away from the tips. -/
def later (limit : Option Nat) (held : BTreeSet ObjectId) : Option SizeGate :=
  limit.map (fun limit => ⟨limit, false, held⟩)

/-- The ids of the walk's result. -/
inductive Scope (s : Store) (f : PrefixFilter) (tips : List ObjectId) (limit : Option Nat)
    (held : BTreeSet ObjectId) : ObjectId → Prop
  | tip {x : ObjectId} (h : x ∈ history s tips) : Scope s f tips limit held x
  | leaf {a x : ObjectId} {o : Object} {r : Role} (ha : a ∈ history s tips)
      (ho : s.objects[a]? = some o) (hr : r = .secret ∨ r = .sealed) (hl : (r, x) ∈ o.links) :
      Scope s f tips limit held x
  | node {n : Node} (h : n ∈ rootNodes s f (history s tips)) : Scope s f tips limit held n.1
  | exempt {x : ObjectId} (h : x ∈ matchedBlobs s f (rootNodes s f {t | t ∈ tips})) :
      Scope s f tips limit held x
  | blob {x : ObjectId} (h : x ∈ matchedBlobs s f (rootNodes s f (history s tips)))
      (hk : Keeps s (later limit held) x) : Scope s f tips limit held x

def SizedState.walk (st : SizedState) (included : BTreeSet ObjectId) : TreeWalk :=
  ⟨[], included, st.gaps, st.expanded, st.sizes⟩

/-- A snapshot or manifest taken from the queue: everything it names is in. -/
def SnapDone (s : Store) (inc : BTreeSet ObjectId) (expanded : Finset Node) (x : ObjectId) : Prop :=
  ∃ o, s.objects[x]? = some o ∧ Role.tip.fits o = true ∧
    (∀ r b, (r, b) ∈ o.links → b ∈ inc) ∧
    ∀ sn, o = .snapshot sn → (sn.root, "") ∈ expanded

/-- The walk between two snapshots. Tips stand before all others in the queue, and as long
as one waits no blob has been refused. -/
structure Walked (s : Store) (f : PrefixFilter) (tips : List ObjectId) (limit : Option Nat)
    (held : BTreeSet ObjectId) (kind : ObjectId → Role) (queue : List ObjectId)
    (inc : BTreeSet ObjectId) (st : SizedState) : Prop where
  tipsFirst : ∃ ts rest, queue = ts ++ rest ∧ (∀ t ∈ ts, t ∈ tips) ∧ ∀ x ∈ rest, x ∉ tips
  queued : ∀ x ∈ queue, x ∈ history s tips
  tipsIn : ∀ t ∈ tips, t ∈ inc
  sizes : Faithful s limit st.sizes
  taken : ∀ x ∈ inc, Scope s f tips limit held x
  gapped : ∀ x ∈ st.gaps, x ∈ named s (rootNodes s f (history s tips))
  done : ∀ x ∈ inc, kind x = .tip → x ∈ queue ∨ SnapDone s inc st.expanded x
  nodes : ∀ n ∈ st.expanded, NodeDone s f (Refuses s (later limit held)) (st.walk inc) n
  exempt : (∃ t ∈ tips, t ∈ queue) →
    ∀ n ∈ st.expanded, NodeDone s f (fun _ => False) (st.walk inc) n
  tipNodes : ∀ t ∈ tips, t ∉ queue → ∀ n ∈ rootNodes s f {t},
    NodeDone s f (fun _ => False) (st.walk inc) n

section Step

variable {s : Store} {f : PrefixFilter} {tips : List ObjectId} {limit : Option Nat}
  {held : BTreeSet ObjectId} {kind : ObjectId → Role}

theorem history_link {a b : ObjectId} (ha : a ∈ history s tips) (h : s.SnapLink a b) :
    b ∈ history s tips := by
  obtain ⟨t, ht, hr⟩ := ha
  exact ⟨t, ht, hr.tail h⟩

theorem tips_subset_history : {t | t ∈ tips} ⊆ history s tips :=
  fun t ht => ⟨t, ht, .refl⟩

theorem rootNodes_link {X : Set ObjectId} {a b : Node} (ha : a ∈ rootNodes s f X)
    (h : NodeLink s f a b) : b ∈ rootNodes s f X := by
  obtain ⟨x, hx, sn, hsn, hr⟩ := ha
  exact ⟨x, hx, sn, hsn, hr.tail h⟩

theorem decides_of_keeps {gate : Option SizeGate} {x : ObjectId} (h : Keeps s gate x) :
    Decides s gate x := by
  cases gate with
  | none => trivial
  | some g =>
    rcases h with he | hin | hmax | ⟨n, hn, -⟩
    · exact .inl he
    · exact .inr (.inl hin)
    · exact .inr (.inr (.inr (.inl hmax)))
    · exact .inr (.inr (.inr (.inr ⟨n, hn⟩)))

theorem sizeGate_limit (sid : ObjectId) :
    (sizeGate tips limit held sid).map (·.limit) = limit := by
  cases limit <;> rfl

theorem keeps_of_tip {sid x : ObjectId} (h : sid ∈ tips) :
    Keeps s (sizeGate tips limit held sid) x := by
  cases limit with
  | none => trivial
  | some l => exact .inl (List.contains_iff_mem.mpr h)

theorem not_refused_of_tip {sid x : ObjectId} (h : sid ∈ tips) :
    ¬ Refuses s (sizeGate tips limit held sid) x :=
  fun hr => hr.1 (keeps_of_tip h)

theorem sizeGate_of_not_tip {sid : ObjectId} (h : sid ∉ tips) :
    sizeGate tips limit held sid = later limit held := by
  have hc : tips.contains sid = false := by simpa using h
  cases limit with
  | none => rfl
  | some l => simp only [sizeGate, later, Option.map_some, hc]

/-- Nodes that are settled together with their subtrees are settled all the way down. -/
theorem settled_below {refused : ObjectId → Prop} {w : TreeWalk}
    (h : ∀ n ∈ w.expanded, NodeDone s f refused w n) {n m : Node} (hn : n ∈ w.expanded)
    (hin : n.1 ∈ w.included) (hr : Worklist.Reach (NodeLink s f) n m) :
    m ∈ w.expanded ∧ m.1 ∈ w.included := by
  induction hr with
  | refl => exact ⟨hn, hin⟩
  | tail hab hbc ih =>
    obtain ⟨t, ht, e, he, hk, hd, rfl⟩ := hbc
    obtain ⟨t', ht', hdone⟩ := h _ ih.1
    rw [ht] at ht'
    cases ht'
    have := hdone e he
    simp only [EntryDone, hk, hd, if_true] at this
    exact ⟨this.2, this.1⟩

theorem root_link (sn : Snapshot) : (Role.tree, sn.root) ∈ (Object.snapshot sn).links :=
  List.mem_append_right _ (List.mem_singleton_self _)

theorem rootNodes_mono {X Y : Set ObjectId} (h : X ⊆ Y) : rootNodes s f X ⊆ rootNodes s f Y := by
  rintro n ⟨x, hx, hn⟩
  exact ⟨x, h hx, hn⟩

theorem matchedBlobs_mono {A B : Set Node} (h : A ⊆ B) : matchedBlobs s f A ⊆ matchedBlobs s f B := by
  rintro x ⟨n, hn, hx⟩
  exact ⟨n, h hn, hx⟩

theorem named_mono {A B : Set Node} (h : A ⊆ B) : named s A ⊆ named s B := by
  rintro x ⟨n, hn, hx⟩
  exact ⟨n, h hn, hx⟩

theorem kind_of_node (hk : s.Kinded kind) {X : Set ObjectId} {n : Node}
    (hn : n ∈ rootNodes s f X) : kind n.1 = .tree := by
  obtain ⟨x, hx, sn, hsn, hr⟩ := hn
  rcases Relation.ReflTransGen.cases_tail hr with rfl | ⟨m, -, t, ht, e, he, hkind, -, rfl⟩
  · exact hk.links x _ hsn .tree _ (root_link sn)
  · exact hk.links _ _ ht .tree _ (List.mem_map.mpr ⟨e, he, by rw [hkind]; rfl⟩)

theorem kind_of_matched (hk : s.Kinded kind) {A : Set Node} {x : ObjectId}
    (hx : x ∈ matchedBlobs s f A) : kind x = .blob := by
  obtain ⟨n, -, t, ht, e, he, hkind, -, rfl⟩ := hx
  exact hk.links _ _ ht .blob _ (List.mem_map.mpr ⟨e, he, by rw [hkind]; rfl⟩)

theorem not_tip_of_takable (hk : s.Kinded kind) {gate : Option SizeGate} {X : Set ObjectId}
    {x : ObjectId} (hx : x ∈ takable s f gate (rootNodes s f X)) : kind x ≠ .tip := by
  rcases hx with ⟨n, hn, rfl⟩ | ⟨hm, -⟩
  · rw [kind_of_node hk hn]
    simp
  · rw [kind_of_matched hk hm]
    simp

/-- What walking the snapshot or manifest `x` does to the search. -/
structure Visited (s : Store) (f : PrefixFilter) (tips : List ObjectId) (limit : Option Nat)
    (held : BTreeSet ObjectId) (x : ObjectId) (o : Object) (inc : BTreeSet ObjectId)
    (st : SizedState) (new : List ObjectId) (inc' : BTreeSet ObjectId) (st' : SizedState) :
    Prop where
  grows : Grows (st.walk inc) (st'.walk inc')
  sizes : Faithful s limit st'.sizes
  newLinks : ∀ y ∈ new, (Role.tip, y) ∈ o.links
  newFresh : ∀ y ∈ new, y ∉ inc
  newAll : ∀ y, (Role.tip, y) ∈ o.links → y ∉ inc → y ∈ new
  links : ∀ r b, (r, b) ∈ o.links → b ∈ inc'
  root : ∀ sn, o = .snapshot sn → (sn.root, "") ∈ st'.expanded
  taken : ∀ y ∈ inc', y ∈ inc ∨
    (∃ r, (r = .tip ∨ r = .secret ∨ r = .sealed) ∧ (r, y) ∈ o.links) ∨
    y ∈ takable s f (sizeGate tips limit held x) (rootNodes s f {x})
  gapped : ∀ y ∈ st'.gaps, y ∈ st.gaps ∨ y ∈ named s (rootNodes s f {x})
  nodes : ∀ refused : ObjectId → Prop,
    (∀ y, Refuses s (sizeGate tips limit held x) y → refused y) →
    (∀ n ∈ st.expanded, NodeDone s f refused (st.walk inc) n) →
    ∀ n ∈ st'.expanded, NodeDone s f refused (st'.walk inc') n

/-- A tip that waits stands before everything that is none. -/
theorem Walked.head_tip {x : ObjectId} {queue : List ObjectId} {inc : BTreeSet ObjectId}
    {st : SizedState} (h : Walked s f tips limit held kind (x :: queue) inc st)
    (ht : ∃ t ∈ tips, t ∈ queue) : x ∈ tips := by
  obtain ⟨ts, rest, hq, hts, hrest⟩ := h.tipsFirst
  cases ts with
  | nil =>
    obtain ⟨t, ht, hin⟩ := ht
    simp only [List.nil_append] at hq
    exact absurd ht (hrest t (hq ▸ List.mem_cons_of_mem _ hin))
  | cons y ts =>
    rw [List.cons_append, List.cons.injEq] at hq
    exact hq.1 ▸ hts y (List.mem_cons_self ..)

theorem Walked.next (hk : s.Kinded kind) {x : ObjectId} {queue new : List ObjectId}
    {inc inc' : BTreeSet ObjectId} {st st' : SizedState} {o : Object}
    (h : Walked s f tips limit held kind (x :: queue) inc st) (ho : s.objects[x]? = some o)
    (hfit : Role.tip.fits o = true)
    (hv : Visited s f tips limit held x o inc st new inc' st') :
    Walked s f tips limit held kind (queue ++ new) inc' st' := by
  have hx : x ∈ history s tips := h.queued x (by simp)
  have hsub : rootNodes s f {x} ⊆ rootNodes s f (history s tips) :=
    rootNodes_mono (by simpa using hx)
  have hnewtip : ∀ y ∈ new, y ∉ tips := fun y hy ht => hv.newFresh y hy (h.tipsIn y ht)
  have hexempt : x ∈ tips → ∀ n ∈ st'.expanded, NodeDone s f (fun _ => False) (st'.walk inc') n :=
    fun hxt => hv.nodes _ (fun y => not_refused_of_tip hxt) (h.exempt ⟨x, hxt, by simp⟩)
  refine ⟨?_, ?_, fun t ht => hv.grows.included t (h.tipsIn t ht), hv.sizes, ?_, ?_, ?_, ?_, ?_, ?_⟩
  · obtain ⟨ts, rest, hq, hts, hrest⟩ := h.tipsFirst
    cases ts with
    | nil =>
      refine ⟨[], queue ++ new, rfl, by simp, fun y hy => ?_⟩
      rcases List.mem_append.mp hy with hy | hy
      · exact hrest y (by rw [List.nil_append] at hq; rw [← hq]; exact List.mem_cons_of_mem _ hy)
      · exact hnewtip y hy
    | cons y ts =>
      rw [List.cons_append, List.cons.injEq] at hq
      refine ⟨ts, rest ++ new, by rw [hq.2, List.append_assoc],
        fun t ht => hts t (List.mem_cons_of_mem _ ht), fun z hz => ?_⟩
      rcases List.mem_append.mp hz with hz | hz
      · exact hrest z hz
      · exact hnewtip z hz
  · intro y hy
    rcases List.mem_append.mp hy with hy | hy
    · exact h.queued y (List.mem_cons_of_mem _ hy)
    · exact history_link hx ⟨o, ho, hv.newLinks y hy⟩
  · intro y hy
    rcases hv.taken y hy with hold | ⟨r, hr, hl⟩ | ⟨n, hn, rfl⟩ | ⟨hm, hkeep⟩
    · exact h.taken y hold
    · rcases hr with rfl | hr
      · exact .tip (history_link hx ⟨o, ho, hl⟩)
      · exact .leaf hx ho hr hl
    · exact .node (hsub hn)
    · by_cases hxt : x ∈ tips
      · refine .exempt (matchedBlobs_mono (rootNodes_mono ?_) hm)
        simpa using hxt
      · rw [sizeGate_of_not_tip hxt] at hkeep
        exact .blob (matchedBlobs_mono hsub hm) hkeep
  · intro y hy
    rcases hv.gapped y hy with hold | hnew
    · exact h.gapped y hold
    · exact named_mono hsub hnew
  · intro y hy hkind
    have hold : y ∈ inc → y ∈ queue ++ new ∨ SnapDone s inc' st'.expanded y := by
      intro hin
      rcases h.done y hin hkind with hq | ⟨o', ho', hfit', hlinks, hroot⟩
      · rcases List.mem_cons.mp hq with rfl | hq
        · exact .inr ⟨o, ho, hfit, hv.links, hv.root⟩
        · exact .inl (List.mem_append_left _ hq)
      · exact .inr ⟨o', ho', hfit', fun r b hl => hv.grows.included b (hlinks r b hl),
          fun sn hsn => hv.grows.expanded _ (hroot sn hsn)⟩
    by_cases hin : y ∈ inc
    · exact hold hin
    · rcases hv.taken y hy with hin' | ⟨r, -, hl⟩ | htake
      · exact hold hin'
      · rw [hk.links x o ho r y hl] at hkind
        exact .inl (List.mem_append_right _ (hv.newAll y (hkind ▸ hl) hin))
      · exact absurd hkind (not_tip_of_takable hk htake)
  · refine hv.nodes _ (fun y hr => ?_) h.nodes
    by_cases hxt : x ∈ tips
    · exact absurd hr (not_refused_of_tip hxt)
    · rwa [sizeGate_of_not_tip hxt] at hr
  · rintro ⟨t, ht, hin⟩
    rcases List.mem_append.mp hin with hin | hin
    · exact hexempt (h.head_tip ⟨t, ht, hin⟩)
    · exact absurd ht (hnewtip t hin)
  · intro t ht hnot n hn
    rw [List.mem_append, not_or] at hnot
    by_cases htx : t = x
    · subst htx
      obtain ⟨y, rfl, sn, hsn, hr⟩ := hn
      rw [ho] at hsn
      cases hsn
      have hin : ((sn.root, "") : Node).1 ∈ (st'.walk inc').included :=
        hv.links .tree sn.root (root_link sn)
      exact hexempt ht n (settled_below (hexempt ht) (hv.root sn rfl) hin hr).1
    · refine (h.tipNodes t ht ?_ n hn).mono hv.grows (fun _ h => h)
      rw [List.mem_cons, not_or]
      exact ⟨htx, hnot.1⟩

/-- A finished descent settles its root and everything below it. -/
theorem walkTreeSized_ok {fuel : Nat} {gate : Option SizeGate} {root : ObjectId}
    {inc inc' : BTreeSet ObjectId} {st st' : SizedState}
    (h : walkTreeSized s fuel (some f) gate root inc st = .ok (inc', st'))
    (hf : Faithful s (gate.map (·.limit)) st.sizes) {refused : ObjectId → Prop}
    (hr : ∀ x, Refuses s gate x → refused x)
    (hs : ∀ n ∈ st.expanded, NodeDone s f refused (st.walk inc) n) :
    Descended s f gate {n | Worklist.Reach (NodeLink s f) (root, "") n} refused (st.walk inc)
        (st'.walk inc') ∧ root ∈ inc' ∧ (root, "") ∈ st'.expanded := by
  simp only [walkTreeSized] at h
  obtain ⟨w, hloop, h⟩ := Fallible.bind_ok h
  cases h
  have hA : ∀ a ∈ {n | Worklist.Reach (NodeLink s f) (root, "") n}, ∀ b, NodeLink s f a b →
      b ∈ {n | Worklist.Reach (NodeLink s f) (root, "") n} := fun a ha b hb => ha.tail hb
  have hpush : Advanced s gate {n | Worklist.Reach (NodeLink s f) (root, "") n}
      (takable s f gate {n | Worklist.Reach (NodeLink s f) (root, "") n})
      (named s {n | Worklist.Reach (NodeLink s f) (root, "") n}) (st.walk inc)
      ((st.walk inc).push (root, "")) := .push hf .refl (.inl ⟨(root, ""), .refl, rfl⟩)
  have hsettled : Settled s f refused ((st.walk inc).push (root, "")) := by
    intro n hn
    rcases hpush.fresh n hn with hold | hnew
    · exact .inr ((hs n hold).mono hpush.grows (fun _ h => h))
    · exact .inl hnew
  have hdown := loop_descended hA hr hloop hpush.sizes (fun n hn => by
    rcases hpush.stack n hn with hold | hnew
    · cases hold
    · exact hnew) hsettled
  have hroot := mem_push (st.walk inc) (root, "")
  refine ⟨⟨⟨fun x hx => hdown.grows.included x (hpush.grows.included x hx),
    fun x hx => hdown.grows.gaps x (hpush.grows.gaps x hx),
    fun n hn => hdown.grows.expanded n (hpush.grows.expanded n hn)⟩, hdown.sizes, hdown.settled,
    fun x hx => (hdown.taken x hx).elim (hpush.taken x) .inr,
    fun x hx => (hdown.gapped x hx).elim (hpush.gapped x) .inr⟩,
    hdown.grows.included _ hroot.1, hdown.grows.expanded _ hroot.2⟩

/-- The ids a snapshot or manifest brings to the queue. -/
def successors : Object → List ObjectId
  | .snapshot sn => sn.parents
  | .manifest m => m.base :: m.anchors ++ m.prev.toList
  | _ => []

/-- The ids it brings that are leaves. -/
def leaves : Object → List ObjectId
  | .snapshot sn => sn.secrets.values
  | .manifest m => m.closure
  | _ => []

theorem mem_successors {o : Object} {y : ObjectId} :
    y ∈ successors o ↔ (Role.tip, y) ∈ o.links := by
  cases o with
  | snapshot sn => simp [successors, Object.links]
  | manifest m => simp [successors, Object.links]
  | tree t =>
    simp only [successors, Object.links, List.not_mem_nil, List.mem_map, false_iff]
    rintro ⟨e, -, he⟩
    cases hk : e.kind <;> simp [hk, EntryKind.role] at he
  | _ => simp [successors, Object.links]

theorem mem_leaves {o : Object} {y : ObjectId} (hfit : Role.tip.fits o = true) :
    y ∈ leaves o ↔ ∃ r, (r = .secret ∨ r = .sealed) ∧ (r, y) ∈ o.links := by
  cases o with
  | snapshot sn => simp [leaves, Object.links]
  | manifest m => simp [leaves, Object.links]
  | _ => cases hfit

theorem visited_manifest (f : PrefixFilter) (tips : List ObjectId) (held : BTreeSet ObjectId)
    (hk : s.Kinded kind) {x : ObjectId} {m : BranchManifest}
    (ho : s.objects[x]? = some (.manifest m)) (queue : List ObjectId) (inc : BTreeSet ObjectId)
    {st : SizedState} (hf : Faithful s limit st.sizes) :
    ∃ new, (markNew (m.base :: m.anchors ++ m.prev.toList) queue (markAll m.closure inc)).1 =
        queue ++ new ∧
      Visited s f tips limit held x (.manifest m) inc st new
        (markNew (m.base :: m.anchors ++ m.prev.toList) queue (markAll m.closure inc)).2 st := by
  obtain ⟨hmem, new, hq, hsub, hfresh, hall⟩ :=
    markNew_spec (m.base :: m.anchors ++ m.prev.toList) queue (markAll m.closure inc)
  have hgrows : Grows (st.walk inc) (st.walk
      (markNew (m.base :: m.anchors ++ m.prev.toList) queue (markAll m.closure inc)).2) :=
    ⟨fun y hy => (hmem y).mpr (.inr (mem_markAll.mpr (.inr hy))), fun _ h => h, fun _ h => h⟩
  refine ⟨new, hq, hgrows, hf, fun y hy => mem_successors.mp (hsub.subset hy),
    fun y hy hin => hfresh y hy (mem_markAll.mpr (.inr hin)), ?_, ?_, ?_, ?_,
    fun _ h => .inl h, fun refused _ hs n hn => (hs n hn).mono hgrows (fun _ h => h)⟩
  · intro y hl hin
    refine hall y (mem_successors.mpr hl) fun hmark => ?_
    rcases mem_markAll.mp hmark with hc | hin'
    · have hsealed := hk.links x _ ho .sealed y (by simp [Object.links, hc])
      rw [hk.links x _ ho .tip y hl] at hsealed
      cases hsealed
    · exact hin hin'
  · intro r b hl
    rw [hmem, mem_markAll]
    rcases List.mem_append.mp hl with hl | hl
    · obtain ⟨z, hz, he⟩ := List.mem_map.mp hl
      cases he
      exact .inr (.inl hz)
    · obtain ⟨z, hz, he⟩ := List.mem_map.mp hl
      cases he
      exact .inl hz
  · rintro sn ⟨⟩
  · intro y hy
    rw [hmem, mem_markAll] at hy
    rcases hy with hy | hy | hy
    · exact .inr (.inl ⟨.tip, .inl rfl, mem_successors.mp hy⟩)
    · exact .inr (.inl ⟨.sealed, .inr (.inr rfl), by simp [Object.links, hy]⟩)
    · exact .inl hy

theorem visited_snapshot {x : ObjectId} {sn : Snapshot}
    (ho : s.objects[x]? = some (.snapshot sn)) {fuel : Nat} {queue : List ObjectId}
    {inc inc' : BTreeSet ObjectId} {st st' : SizedState} (hf : Faithful s limit st.sizes)
    {refused : ObjectId → Prop} (hs : ∀ n ∈ st.expanded, NodeDone s f refused (st.walk inc) n)
    (h : walkTreeSized s fuel (some f) (sizeGate tips limit held x) sn.root
      (markAll sn.secrets.values (markNew sn.parents queue inc).2) st = .ok (inc', st')) :
    ∃ new, (markNew sn.parents queue inc).1 = queue ++ new ∧
      Visited s f tips limit held x (.snapshot sn) inc st new inc' st' := by
  obtain ⟨hmem, new, hq, hsub, hfresh, hall⟩ := markNew_spec sn.parents queue inc
  let inc₂ := markAll sn.secrets.values (markNew sn.parents queue inc).2
  have hmem₂ : ∀ y, y ∈ inc₂ ↔ y ∈ sn.secrets.values ∨ y ∈ sn.parents ∨ y ∈ inc := by
    intro y
    rw [mem_markAll, hmem]
  have hmarked : Grows (st.walk inc) (st.walk inc₂) :=
    ⟨fun y hy => (hmem₂ y).mpr (.inr (.inr hy)), fun _ h => h, fun _ h => h⟩
  have hf' : Faithful s ((sizeGate tips limit held x).map (·.limit)) st.sizes := by
    rwa [sizeGate_limit]
  have hrun := fun (P : ObjectId → Prop) (hP : ∀ y, Refuses s (sizeGate tips limit held x) y → P y)
    (hs : ∀ n ∈ st.expanded, NodeDone s f P (st.walk inc) n) =>
      walkTreeSized_ok h hf' hP (fun n hn => (hs n hn).mono hmarked (fun _ h => h))
  obtain ⟨hdown, hroot, hnode⟩ := hrun (fun _ => True) (fun _ _ => trivial)
    (fun n hn => (hs n hn).mono ⟨fun _ h => h, fun _ h => h, fun _ h => h⟩ (fun _ _ => trivial))
  have hA : {n | Worklist.Reach (NodeLink s f) (sn.root, "") n} ⊆ rootNodes s f {x} :=
    fun n hn => ⟨x, rfl, sn, ho, hn⟩
  have hgrows : Grows (st.walk inc) (st'.walk inc') :=
    ⟨fun y hy => hdown.grows.included y (hmarked.included y hy), hdown.grows.gaps,
      hdown.grows.expanded⟩
  have hsizes := hdown.sizes
  rw [sizeGate_limit] at hsizes
  refine ⟨new, hq, hgrows, hsizes, fun y hy => mem_successors.mp (hsub.subset hy), hfresh,
    fun y hl hin => hall y (mem_successors.mpr hl) hin, ?_, ?_, ?_,
    fun y hy => (hdown.gapped y hy).imp_right (fun hn => named_mono hA hn),
    fun P hP hs n hn => (hrun P hP hs).1.settled n hn⟩
  · intro r b hl
    simp only [Object.links, List.mem_append, List.mem_map, List.mem_singleton,
      Prod.mk.injEq] at hl
    rcases hl with (⟨z, hz, -, rfl⟩ | ⟨z, hz, -, rfl⟩) | ⟨-, rfl⟩
    · exact hdown.grows.included _ ((hmem₂ z).mpr (.inr (.inl hz)))
    · exact hdown.grows.included _ ((hmem₂ z).mpr (.inl hz))
    · exact hroot
  · rintro sn' ⟨⟩
    exact hnode
  · intro y hy
    rcases hdown.taken y hy with hy | htake
    · rcases (hmem₂ y).mp hy with hy | hy | hy
      · exact .inr (.inl ⟨.secret, .inr (.inl rfl), by simp [Object.links, hy]⟩)
      · exact .inr (.inl ⟨.tip, .inl rfl, mem_successors.mp hy⟩)
      · exact .inl hy
    · refine .inr (.inr ?_)
      rcases htake with ⟨n, hn, rfl⟩ | ⟨hm, hkeep⟩
      · exact .inl ⟨n, hA hn, rfl⟩
      · exact .inr ⟨matchedBlobs_mono hA hm, hkeep⟩

/-- The walk of the root trees in one run. -/
abbrev walkRoots (s : Store) (f : PrefixFilter) (tips : List ObjectId) (limit : Option Nat)
    (held : BTreeSet ObjectId) (fuel : Nat) (sid root : ObjectId) (included : BTreeSet ObjectId)
    (st : SizedState) : Except Error (BTreeSet ObjectId × SizedState) :=
  walkTreeSized s fuel (some f) (sizeGate tips limit held sid) root included st

theorem walkSnapshots_walked (hk : s.Kinded kind) {treeFuel fuel : Nat} {queue : List ObjectId}
    {inc inc' : BTreeSet ObjectId} {st st' : SizedState}
    (h : walkSnapshots s (walkRoots s f tips limit held treeFuel) fuel queue inc st =
      .ok (inc', st'))
    (hw : Walked s f tips limit held kind queue inc st) :
    Walked s f tips limit held kind [] inc' st' := by
  induction fuel generalizing queue inc st with
  | zero => cases h
  | succ fuel ih =>
    cases queue with
    | nil =>
      cases h
      exact hw
    | cons x queue =>
      rw [walkSnapshots] at h
      obtain ⟨o, hget, h⟩ := Fallible.bind_ok h
      have ho := Store.get_eq_ok_iff.mp hget
      cases o with
      | snapshot sn =>
        obtain ⟨⟨inc₁, st₁⟩, hroot, h⟩ := Fallible.bind_ok h
        obtain ⟨new, hq, hv⟩ := visited_snapshot ho hw.sizes hw.nodes hroot
        have hrest : walkSnapshots s (walkRoots s f tips limit held treeFuel) fuel
            (markNew sn.parents queue inc).1 inc₁ st₁ = .ok (inc', st') := h
        rw [hq] at hrest
        exact ih hrest (hw.next hk ho rfl hv)
      | manifest m =>
        obtain ⟨new, hq, hv⟩ := visited_manifest f tips held hk ho queue inc hw.sizes
        simp only [hq] at h
        exact ih h (hw.next hk ho rfl hv)
      | _ => cases h

/-- A run that succeeds has read everything in its queue. -/
theorem walkSnapshots_read {σ : Type}
    {walkRoot : ObjectId → ObjectId → BTreeSet ObjectId → σ → Except Error (BTreeSet ObjectId × σ)}
    {fuel : Nat} {queue : List ObjectId} {inc : BTreeSet ObjectId} {st : σ}
    {out : BTreeSet ObjectId × σ} (h : walkSnapshots s walkRoot fuel queue inc st = .ok out) :
    ∀ x ∈ queue, ∃ o, s.objects[x]? = some o ∧ Role.tip.fits o = true := by
  induction fuel generalizing queue inc st with
  | zero => cases h
  | succ fuel ih =>
    cases queue with
    | nil => simp
    | cons y queue =>
      rw [walkSnapshots] at h
      obtain ⟨o, hget, h⟩ := Fallible.bind_ok h
      have ho := Store.get_eq_ok_iff.mp hget
      have hqueue : (∀ x ∈ queue, ∃ o, s.objects[x]? = some o ∧ Role.tip.fits o = true) →
          Role.tip.fits o = true →
          ∀ x ∈ y :: queue, ∃ o, s.objects[x]? = some o ∧ Role.tip.fits o = true := by
        intro hrest hfit x hx
        rcases List.mem_cons.mp hx with rfl | hx
        · exact ⟨o, ho, hfit⟩
        · exact hrest x hx
      cases o with
      | snapshot sn =>
        obtain ⟨out₁, -, h⟩ := Fallible.bind_ok h
        obtain ⟨-, new, hq, -⟩ := markNew_spec sn.parents queue inc
        have hrest := ih h
        refine hqueue (fun x hx => ?_) rfl
        have hin : x ∈ (markNew sn.parents queue inc).1 := hq ▸ List.mem_append_left _ hx
        exact hrest x hin
      | manifest m =>
        obtain ⟨-, new, hq, -⟩ :=
          markNew_spec (m.base :: m.anchors ++ m.prev.toList) queue (markAll m.closure inc)
        have hrest := ih h
        refine hqueue (fun x hx => ?_) rfl
        have hin : x ∈ (markNew (m.base :: m.anchors ++ m.prev.toList) queue
            (markAll m.closure inc)).1 := hq ▸ List.mem_append_left _ hx
        exact hrest x hin
      | _ => cases h

/-! ## The finished walk -/

/-- What a walk reads: the history, the trees in scope, and the blobs it has to measure. -/
structure Readable (s : Store) (f : PrefixFilter) (tips : List ObjectId) (limit : Option Nat)
    (held : BTreeSet ObjectId) : Prop where
  snapshots : ∀ x ∈ history s tips, ∃ o, s.objects[x]? = some o ∧ Role.tip.fits o = true
  trees : ∀ n ∈ rootNodes s f (history s tips), ∃ t, s.objects[n.1]? = some (.tree t)
  blobs : ∀ x ∈ matchedBlobs s f (rootNodes s f (history s tips)),
    x ∈ matchedBlobs s f (rootNodes s f {t | t ∈ tips}) ∨ Decides s (later limit held) x

variable {inc : BTreeSet ObjectId} {st : SizedState}

theorem history_kind (hk : s.Kinded kind) (htips : ∀ t ∈ tips, kind t = .tip) {x : ObjectId}
    (hx : x ∈ history s tips) : kind x = .tip := by
  obtain ⟨t, ht, hr⟩ := hx
  rcases Relation.ReflTransGen.cases_tail hr with rfl | ⟨y, -, o, ho, hl⟩
  · exact htips _ ht
  · exact hk.links y o ho .tip x hl

/-- A blob in scope is there by its paths and the size rule. -/
theorem Scope.of_blob (hk : s.Kinded kind) (htips : ∀ t ∈ tips, kind t = .tip) {x : ObjectId}
    (h : Scope s f tips limit held x) (hx : kind x = .blob) :
    x ∈ matchedBlobs s f (rootNodes s f {t | t ∈ tips}) ∨
      x ∈ matchedBlobs s f (rootNodes s f (history s tips)) ∧ Keeps s (later limit held) x := by
  cases h with
  | tip h =>
    rw [history_kind hk htips h] at hx
    cases hx
  | leaf ha ho hr hl =>
    rw [hk.links _ _ ho _ _ hl] at hx
    rcases hr with rfl | rfl <;> cases hx
  | node hn =>
    rw [kind_of_node hk hn] at hx
    cases hx
  | exempt hm => exact .inl hm
  | blob hm hkeep => exact .inr ⟨hm, hkeep⟩

/-- A tree in scope is one the descents pass. -/
theorem Scope.of_tree (hk : s.Kinded kind) (htips : ∀ t ∈ tips, kind t = .tip) {x : ObjectId}
    (h : Scope s f tips limit held x) (hx : kind x = .tree) :
    ∃ n ∈ rootNodes s f (history s tips), n.1 = x := by
  cases h with
  | tip h =>
    rw [history_kind hk htips h] at hx
    cases hx
  | leaf ha ho hr hl =>
    rw [hk.links _ _ ho _ _ hl] at hx
    rcases hr with rfl | rfl <;> cases hx
  | node hn => exact ⟨_, hn, rfl⟩
  | exempt hm =>
    rw [kind_of_matched hk hm] at hx
    cases hx
  | blob hm hkeep =>
    rw [kind_of_matched hk hm] at hx
    cases hx

namespace Walked

theorem history_done (h : Walked s f tips limit held kind [] inc st) (hk : s.Kinded kind)
    (htips : ∀ t ∈ tips, kind t = .tip) {x : ObjectId} (hx : x ∈ history s tips) :
    x ∈ inc ∧ SnapDone s inc st.expanded x := by
  have hdone : ∀ y ∈ inc, kind y = .tip → SnapDone s inc st.expanded y := by
    intro y hy hkind
    rcases h.done y hy hkind with hq | hdone
    · cases hq
    · exact hdone
  obtain ⟨t, ht, hr⟩ := hx
  have hall : x ∈ inc ∧ kind x = .tip := by
    induction hr with
    | refl => exact ⟨h.tipsIn t ht, htips t ht⟩
    | tail hab hbc ih =>
      obtain ⟨o, ho, hl⟩ := hbc
      obtain ⟨o', ho', -, hlinks, -⟩ := hdone _ ih.1 ih.2
      rw [ho] at ho'
      cases ho'
      exact ⟨hlinks .tip _ hl, hk.links _ _ ho .tip _ hl⟩
  exact ⟨hall.1, hdone x hall.1 hall.2⟩

theorem node_done (h : Walked s f tips limit held kind [] inc st) (hk : s.Kinded kind)
    (htips : ∀ t ∈ tips, kind t = .tip) {n : Node} (hn : n ∈ rootNodes s f (history s tips)) :
    n.1 ∈ inc ∧ NodeDone s f (Refuses s (later limit held)) (st.walk inc) n := by
  obtain ⟨x, hx, sn, hsn, hr⟩ := hn
  obtain ⟨-, o, ho, -, hlinks, hroot⟩ := h.history_done hk htips hx
  rw [hsn] at ho
  cases ho
  have hin : ((sn.root, "") : Node).1 ∈ (st.walk inc).included := hlinks .tree _ (root_link sn)
  have hbelow := settled_below h.nodes (hroot sn rfl) hin hr
  exact ⟨hbelow.2, h.nodes n hbelow.1⟩

theorem matched_of_done {refused : ObjectId → Prop} {w : TreeWalk} {A : Set Node}
    (h : ∀ n ∈ A, NodeDone s f refused w n) {x : ObjectId} (hx : x ∈ matchedBlobs s f A) :
    x ∈ w.included ∨ x ∈ w.gaps ∧ refused x := by
  obtain ⟨n, hn, t, ht, e, he, hkind, hm, rfl⟩ := hx
  obtain ⟨t', ht', hdone⟩ := h n hn
  rw [ht] at ht'
  cases ht'
  have := hdone e he
  simpa only [EntryDone, hkind, hm, if_true] using this

theorem named_of_done {refused : ObjectId → Prop} {w : TreeWalk} {A : Set Node}
    (h : ∀ n ∈ A, NodeDone s f refused w n) {x : ObjectId} (hx : x ∈ named s A) :
    x ∈ w.included ∨ x ∈ w.gaps := by
  obtain ⟨n, hn, t, ht, e, he, rfl⟩ := hx
  obtain ⟨t', ht', hdone⟩ := h n hn
  rw [ht] at ht'
  cases ht'
  have hd := hdone e he
  unfold EntryDone at hd
  cases hkind : e.kind with
  | blob =>
    simp only [hkind] at hd
    split_ifs at hd
    · exact hd.imp_right And.left
    · exact .inr hd
  | tree =>
    simp only [hkind] at hd
    split_ifs at hd
    · exact .inl hd.1
    · exact .inr hd

theorem tip_matched (h : Walked s f tips limit held kind [] inc st) {x : ObjectId}
    (hx : x ∈ matchedBlobs s f (rootNodes s f {t | t ∈ tips})) : x ∈ inc := by
  have hdone : ∀ n ∈ rootNodes s f {t | t ∈ tips},
      NodeDone s f (fun _ => False) (st.walk inc) n := by
    rintro n ⟨t, ht, hn⟩
    exact h.tipNodes t ht (by simp) n ⟨t, rfl, hn⟩
  rcases matched_of_done hdone hx with hin | ⟨-, hno⟩
  · exact hin
  · exact hno.elim

/-- The finished walk has taken exactly what is in scope. -/
theorem mem_iff (h : Walked s f tips limit held kind [] inc st) (hk : s.Kinded kind)
    (htips : ∀ t ∈ tips, kind t = .tip) (x : ObjectId) :
    x ∈ inc ↔ Scope s f tips limit held x := by
  refine ⟨h.taken x, fun hx => ?_⟩
  cases hx with
  | tip hx => exact (h.history_done hk htips hx).1
  | leaf ha ho hr hl =>
    obtain ⟨-, o, ho', -, hlinks, -⟩ := h.history_done hk htips ha
    rw [ho] at ho'
    cases ho'
    exact hlinks _ _ hl
  | node hn => exact (h.node_done hk htips hn).1
  | exempt hm => exact h.tip_matched hm
  | blob hm hkeep =>
    rcases matched_of_done (fun n hn => (h.node_done hk htips hn).2) hm with hin | ⟨-, hr⟩
    · exact hin
    · exact absurd hkeep hr.1

theorem gap_iff (h : Walked s f tips limit held kind [] inc st) (hk : s.Kinded kind)
    (htips : ∀ t ∈ tips, kind t = .tip) (x : ObjectId) (hx : x ∉ inc) :
    x ∈ st.gaps ↔ x ∈ named s (rootNodes s f (history s tips)) := by
  refine ⟨h.gapped x, fun hn => ?_⟩
  rcases named_of_done (fun n hn => (h.node_done hk htips hn).2) hn with hin | hg
  · exact absurd hin hx
  · exact hg

theorem readable (h : Walked s f tips limit held kind [] inc st) (hk : s.Kinded kind)
    (htips : ∀ t ∈ tips, kind t = .tip) : Readable s f tips limit held where
  snapshots x hx := by
    obtain ⟨-, o, ho, hfit, -⟩ := h.history_done hk htips hx
    exact ⟨o, ho, hfit⟩
  trees n hn := by
    obtain ⟨-, t, ht, -⟩ := h.node_done hk htips hn
    exact ⟨t, ht⟩
  blobs x hx := by
    rcases matched_of_done (fun n hn => (h.node_done hk htips hn).2) hx with hin | ⟨-, hr⟩
    · exact ((h.taken x hin).of_blob hk htips (kind_of_matched hk hx)).imp_right
        (fun hb => decides_of_keeps hb.2)
    · exact .inr hr.2

end Walked

end Step

end Reachable

end SrcControl
