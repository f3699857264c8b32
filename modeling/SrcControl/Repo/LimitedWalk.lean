import SrcControl.Lib.Unfolding
import SrcControl.Repo.ReachableLimited

/-!
# One filtered descent

What the descent from one root leaves behind. Each node it expands is settled: every entry
of its tree was taken or became a gap, by the verdicts of its own path and of the size rule.
-/

namespace SrcControl

open SlashPath

namespace Reachable

/-! ## The size rule -/

namespace SizeGate

/-- The blob passes the size rule. -/
def Keeps (s : Store) : Option SizeGate → ObjectId → Prop
  | none, _ => True
  | some g, id => g.exempt = true ∨ id ∈ g.held ∨ g.limit = u64Max ∨
      ∃ n, s.blobSize id = .ok n ∧ n < g.limit

/-- The size rule decides the blob, by measuring it if it must. -/
def Decides (s : Store) : Option SizeGate → ObjectId → Prop
  | none, _ => True
  | some g, id => g.exempt = true ∨ id ∈ g.held ∨ g.limit = 0 ∨ g.limit = u64Max ∨
      ∃ n, s.blobSize id = .ok n

def Refuses (s : Store) (gate : Option SizeGate) (id : ObjectId) : Prop :=
  ¬ Keeps s gate id ∧ Decides s gate id

/-- Each cached verdict is the one the blob's size gives. -/
def Faithful (s : Store) (limit : Option Nat) (verdicts : Verdicts) : Prop :=
  ∀ l ∈ limit, ∀ (id : ObjectId) (keep : Bool), verdicts[id]? = some keep →
    ∃ n, s.blobSize id = .ok n ∧ keep = decide (n < l)

variable {s : Store} {g : SizeGate} {verdicts : Verdicts} {id : ObjectId} {r : Bool × Verdicts}

theorem measure_ok (h : g.measure s verdicts id = .ok r)
    (hf : Faithful s (some g.limit) verdicts) :
    (∃ n, s.blobSize id = .ok n ∧ r.1 = decide (n < g.limit)) ∧
      Faithful s (some g.limit) r.2 := by
  unfold measure at h
  split at h
  · next keep hkeep =>
    cases h
    exact ⟨hf g.limit rfl id keep hkeep, hf⟩
  · obtain ⟨n, hn, h⟩ := Fallible.bind_ok h
    cases h
    refine ⟨⟨n, hn, rfl⟩, ?_⟩
    rintro l hl x keep hx
    cases hl
    rw [BTreeMap.getElem?_insert] at hx
    split_ifs at hx with hid
    · cases hx
      exact ⟨n, hid ▸ hn, rfl⟩
    · exact hf g.limit rfl x keep hx

theorem keeps_ok (h : g.keeps s verdicts id = .ok r) (hf : Faithful s (some g.limit) verdicts) :
    (r.1 = true → Keeps s (some g) id) ∧ (r.1 = false → Refuses s (some g) id) ∧
      Faithful s (some g.limit) r.2 := by
  unfold keeps at h
  have hheld : g.held.contains id = true ↔ id ∈ g.held := Std.ExtTreeSet.contains_iff_mem
  split_ifs at h with hfree hzero hmax
  · cases h
    rw [Bool.or_eq_true, hheld] at hfree
    refine ⟨fun _ => ?_, by simp, hf⟩
    rcases hfree with hexempt | hin
    · exact .inl hexempt
    · exact .inr (.inl hin)
  · cases h
    rw [Bool.or_eq_true, hheld, not_or] at hfree
    refine ⟨by simp, fun _ => ⟨?_, .inr (.inr (.inl hzero))⟩, hf⟩
    rintro (he | hin | hmax | ⟨n, -, hn⟩)
    · exact hfree.1 he
    · exact hfree.2 hin
    · rw [hzero] at hmax
      cases hmax
    · omega
  · cases h
    exact ⟨fun _ => .inr (.inr (.inl hmax)), by simp, hf⟩
  · rw [Bool.or_eq_true, hheld, not_or] at hfree
    obtain ⟨⟨n, hn, hr⟩, hf'⟩ := measure_ok h hf
    refine ⟨fun hk => ?_, fun hk => ⟨?_, .inr (.inr (.inr (.inr ⟨n, hn⟩)))⟩, hf'⟩
    · rw [hk] at hr
      exact .inr (.inr (.inr ⟨n, hn, of_decide_eq_true hr.symm⟩))
    · rw [hk] at hr
      rintro (he | hin | hm | ⟨n', hn', hlt⟩)
      · exact hfree.1 he
      · exact hfree.2 hin
      · exact hmax hm
      · rw [hn] at hn'
        cases hn'
        exact of_decide_eq_false hr.symm hlt

theorem keeps_isOk (h : Decides s (some g) id) : ∃ r, g.keeps s verdicts id = .ok r := by
  unfold keeps
  split_ifs with hfree hzero hmax
  · exact ⟨_, rfl⟩
  · exact ⟨_, rfl⟩
  · exact ⟨_, rfl⟩
  · rw [Bool.or_eq_true, Std.ExtTreeSet.contains_iff_mem, not_or] at hfree
    unfold measure
    cases hv : verdicts[id]? with
    | some keep => exact ⟨_, rfl⟩
    | none =>
      rcases h with he | hin | hz | hm | ⟨n, hn⟩
      · exact absurd he hfree.1
      · exact absurd hin hfree.2
      · exact absurd hz hzero
      · exact absurd hm hmax
      · simp only [hn]
        exact ⟨_, rfl⟩

end SizeGate

open SizeGate

/-! ## One entry -/

/-- One step of the descent: a subtree the filter descends into. -/
def NodeLink (s : Store) (f : PrefixFilter) (a b : Node) : Prop :=
  ∃ t, s.objects[a.1]? = some (.tree t) ∧ ∃ e ∈ t.entries, e.kind = .tree ∧
    f.shouldDescend (join a.2 e.name) = true ∧ b = (e.id, join a.2 e.name)

/-- The blobs that some node of `A` holds at a path in the filter. -/
def matchedBlobs (s : Store) (f : PrefixFilter) (A : Set Node) : Set ObjectId :=
  {x | ∃ n ∈ A, ∃ t, s.objects[n.1]? = some (.tree t) ∧ ∃ e ∈ t.entries, e.kind = .blob ∧
    f.matchesPath (join n.2 e.name) = true ∧ e.id = x}

/-- What the trees of `A` name. -/
def named (s : Store) (A : Set Node) : Set ObjectId :=
  {x | ∃ n ∈ A, ∃ t, s.objects[n.1]? = some (.tree t) ∧ ∃ e ∈ t.entries, e.id = x}

/-- The verdict on one entry of a node has taken effect. -/
def EntryDone (f : PrefixFilter) (refused : ObjectId → Prop) (w : TreeWalk) (path : String)
    (e : TreeEntry) : Prop :=
  match e.kind with
  | .blob => if f.matchesPath (join path e.name) then
      e.id ∈ w.included ∨ e.id ∈ w.gaps ∧ refused e.id else e.id ∈ w.gaps
  | .tree => if f.shouldDescend (join path e.name) then
      e.id ∈ w.included ∧ (e.id, join path e.name) ∈ w.expanded else e.id ∈ w.gaps

def NodeDone (s : Store) (f : PrefixFilter) (refused : ObjectId → Prop) (w : TreeWalk)
    (n : Node) : Prop :=
  ∃ t, s.objects[n.1]? = some (.tree t) ∧ ∀ e ∈ t.entries, EntryDone f refused w n.2 e

structure Grows (w w' : TreeWalk) : Prop where
  included : ∀ x ∈ w.included, x ∈ w'.included
  gaps : ∀ x ∈ w.gaps, x ∈ w'.gaps
  expanded : ∀ n ∈ w.expanded, n ∈ w'.expanded

theorem EntryDone.mono {f : PrefixFilter} {refused refused' : ObjectId → Prop} {w w' : TreeWalk}
    {path : String} {e : TreeEntry} (h : EntryDone f refused w path e) (hg : Grows w w')
    (hr : ∀ x, refused x → refused' x) : EntryDone f refused' w' path e := by
  unfold EntryDone at h ⊢
  cases hk : e.kind with
  | blob =>
    simp only [hk] at h ⊢
    split_ifs at h ⊢
    · exact h.imp (hg.included _) (And.imp (hg.gaps _) (hr _))
    · exact hg.gaps _ h
  | tree =>
    simp only [hk] at h ⊢
    split_ifs at h ⊢
    · exact ⟨hg.included _ h.1, hg.expanded _ h.2⟩
    · exact hg.gaps _ h

theorem NodeDone.mono {s : Store} {f : PrefixFilter} {refused refused' : ObjectId → Prop}
    {w w' : TreeWalk} {n : Node} (h : NodeDone s f refused w n) (hg : Grows w w')
    (hr : ∀ x, refused x → refused' x) : NodeDone s f refused' w' n := by
  obtain ⟨t, ht, hall⟩ := h
  exact ⟨t, ht, fun e he => (hall e he).mono hg hr⟩

variable {s : Store} {f : PrefixFilter} {gate : Option SizeGate}

theorem keepBlob_ok {w : TreeWalk} {path : String} {id : ObjectId} {r : Bool × Verdicts}
    (h : keepBlob s f gate w path id = .ok r) (hf : Faithful s (gate.map (·.limit)) w.sizes) :
    (r.1 = true → f.matchesPath path = true ∧ (id ∈ w.included ∨ Keeps s gate id)) ∧
      (r.1 = false → f.matchesPath path = true → Refuses s gate id) ∧
      Faithful s (gate.map (·.limit)) r.2 := by
  unfold keepBlob at h
  split at h
  · next hm =>
    cases gate with
    | none =>
      cases h
      exact ⟨fun _ => ⟨hm, .inr trivial⟩, by simp, hf⟩
    | some g =>
      simp only at h
      split at h
      · next hin =>
        cases h
        exact ⟨fun _ => ⟨hm, .inl (Std.ExtTreeSet.contains_iff_mem.mp hin)⟩, by simp, hf⟩
      · obtain ⟨hkeep, hrefuse, hf'⟩ := keeps_ok h hf
        exact ⟨fun ht => ⟨hm, .inr (hkeep ht)⟩, fun hf _ => hrefuse hf, hf'⟩
  · next hm =>
    cases h
    exact ⟨by simp, fun _ h => absurd h hm, hf⟩

/-- What one entry does to the descent, with the reason. -/
inductive Entered (s : Store) (f : PrefixFilter) (gate : Option SizeGate) (path : String)
    (w : TreeWalk) (e : TreeEntry) : TreeWalk → Prop
  | pushed (hk : e.kind = .tree) (hd : f.shouldDescend (join path e.name) = true) :
      Entered s f gate path w e (w.push (e.id, join path e.name))
  | pruned (hk : e.kind = .tree) (hd : f.shouldDescend (join path e.name) ≠ true) :
      Entered s f gate path w e (w.gap e.id)
  | kept (hk : e.kind = .blob) (hm : f.matchesPath (join path e.name) = true)
      (hkeep : e.id ∈ w.included ∨ Keeps s gate e.id) (sizes : Verdicts)
      (hf : Faithful s (gate.map (·.limit)) sizes) :
      Entered s f gate path w e ({ w with sizes := sizes }.take e.id)
  | refused (hk : e.kind = .blob)
      (hr : f.matchesPath (join path e.name) = true → Refuses s gate e.id) (sizes : Verdicts)
      (hf : Faithful s (gate.map (·.limit)) sizes) :
      Entered s f gate path w e ({ w with sizes := sizes }.gap e.id)

theorem sizedEntry_entered {path : String} {w w' : TreeWalk} {e : TreeEntry}
    (h : sizedEntry s f gate path w e = .ok w')
    (hf : Faithful s (gate.map (·.limit)) w.sizes) : Entered s f gate path w e w' := by
  unfold sizedEntry at h
  cases hk : e.kind with
  | tree =>
    simp only [hk] at h
    split at h
    · next hd =>
      cases h
      exact .pushed hk hd
    · next hd =>
      cases h
      exact .pruned hk hd
  | blob =>
    simp only [hk] at h
    obtain ⟨⟨keep, sizes⟩, hkeep, h⟩ := Fallible.bind_ok h
    cases h
    obtain ⟨htrue, hfalse, hf'⟩ := keepBlob_ok hkeep hf
    cases keep with
    | true => exact .kept hk (htrue rfl).1 (htrue rfl).2 sizes hf'
    | false => exact .refused hk (hfalse rfl) sizes hf'

/-- The way from `w` to `w'`: new stack nodes lie in `A`, newly taken ids in `J`, new gaps
in `G`. -/
structure Advanced (s : Store) (gate : Option SizeGate) (A : Set Node) (J G : Set ObjectId)
    (w w' : TreeWalk) : Prop where
  grows : Grows w w'
  sizes : Faithful s (gate.map (·.limit)) w'.sizes
  stack : ∀ n ∈ w'.stack, n ∈ w.stack ∨ n ∈ A
  waiting : ∀ n ∈ w.stack, n ∈ w'.stack
  fresh : ∀ n ∈ w'.expanded, n ∈ w.expanded ∨ n ∈ w'.stack
  taken : ∀ x ∈ w'.included, x ∈ w.included ∨ x ∈ J
  gapped : ∀ x ∈ w'.gaps, x ∈ w.gaps ∨ x ∈ G

namespace Advanced

variable {A : Set Node} {J G : Set ObjectId} {w w' w'' : TreeWalk}

theorem refl (h : Faithful s (gate.map (·.limit)) w.sizes) : Advanced s gate A J G w w where
  grows := ⟨fun _ h => h, fun _ h => h, fun _ h => h⟩
  sizes := h
  stack _ h := .inl h
  waiting _ h := h
  fresh _ h := .inl h
  taken _ h := .inl h
  gapped _ h := .inl h

theorem trans (h : Advanced s gate A J G w w') (h' : Advanced s gate A J G w' w'') :
    Advanced s gate A J G w w'' where
  grows := ⟨fun x hx => h'.grows.included x (h.grows.included x hx),
    fun x hx => h'.grows.gaps x (h.grows.gaps x hx),
    fun n hn => h'.grows.expanded n (h.grows.expanded n hn)⟩
  sizes := h'.sizes
  stack n hn := (h'.stack n hn).elim (h.stack n) .inr
  waiting n hn := h'.waiting n (h.waiting n hn)
  fresh n hn := (h'.fresh n hn).elim (fun hn => (h.fresh n hn).imp_right (h'.waiting n)) .inr
  taken x hx := (h'.taken x hx).elim (h.taken x) .inr
  gapped x hx := (h'.gapped x hx).elim (h.gapped x) .inr

theorem push {n : Node} (hf : Faithful s (gate.map (·.limit)) w.sizes) (hn : n ∈ A)
    (hj : n.1 ∈ J) : Advanced s gate A J G w (w.push n) := by
  have htaken : ∀ x, x ∈ w.included.insert n.1 → x ∈ w.included ∨ x ∈ J := by
    intro x hx
    rw [BTreeSet.mem_insert] at hx
    rcases hx with rfl | hx
    · exact .inr hj
    · exact .inl hx
  have hkeep : ∀ x ∈ w.included, x ∈ w.included.insert n.1 :=
    fun x hx => (BTreeSet.mem_insert _ _ _).mpr (.inr hx)
  unfold TreeWalk.push
  split_ifs with hseen
  · exact ⟨⟨hkeep, fun _ h => h, fun _ h => h⟩, hf, fun _ h => .inl h, fun _ h => h,
      fun _ h => .inl h, htaken, fun _ h => .inl h⟩
  · refine ⟨⟨hkeep, fun _ h => h, fun m hm => Finset.mem_insert_of_mem hm⟩, hf, ?_,
      fun m hm => List.mem_cons_of_mem _ hm, ?_, htaken, fun _ h => .inl h⟩
    · intro m hm
      rcases List.mem_cons.mp hm with rfl | hm
      · exact .inr hn
      · exact .inl hm
    · intro m hm
      rcases Finset.mem_insert.mp hm with rfl | hm
      · exact .inr (List.mem_cons_self ..)
      · exact .inl hm

theorem gap {id : ObjectId} {sizes : Verdicts} (hf : Faithful s (gate.map (·.limit)) sizes)
    (hg : id ∈ G) : Advanced s gate A J G w ({ w with sizes := sizes }.gap id) where
  grows := ⟨fun _ h => h, fun x hx => (BTreeSet.mem_insert _ _ _).mpr (.inr hx), fun _ h => h⟩
  sizes := hf
  stack _ h := .inl h
  waiting _ h := h
  fresh _ h := .inl h
  taken _ h := .inl h
  gapped x hx := by
    rcases (BTreeSet.mem_insert _ _ _).mp hx with rfl | hx
    · exact .inr hg
    · exact .inl hx

theorem take {id : ObjectId} {sizes : Verdicts} (hf : Faithful s (gate.map (·.limit)) sizes)
    (hj : id ∈ w.included ∨ id ∈ J) :
    Advanced s gate A J G w ({ w with sizes := sizes }.take id) where
  grows := ⟨fun x hx => (BTreeSet.mem_insert _ _ _).mpr (.inr hx), fun _ h => h, fun _ h => h⟩
  sizes := hf
  stack _ h := .inl h
  waiting _ h := h
  fresh _ h := .inl h
  taken x hx := by
    rcases (BTreeSet.mem_insert _ _ _).mp hx with rfl | hx
    · exact hj
    · exact .inl hx
  gapped _ h := .inl h

end Advanced

/-- What a descent through the nodes `A` may take. -/
def takable (s : Store) (f : PrefixFilter) (gate : Option SizeGate) (A : Set Node) :
    Set ObjectId :=
  {x | (∃ n ∈ A, n.1 = x) ∨ x ∈ matchedBlobs s f A ∧ Keeps s gate x}

section Descent

variable {A : Set Node}

theorem mem_push (w : TreeWalk) (n : Node) : n.1 ∈ (w.push n).included ∧ n ∈ (w.push n).expanded := by
  unfold TreeWalk.push
  split_ifs with h
  · exact ⟨(BTreeSet.mem_insert _ _ _).mpr (.inl rfl), h⟩
  · exact ⟨(BTreeSet.mem_insert _ _ _).mpr (.inl rfl), Finset.mem_insert_self _ _⟩

theorem Entered.advanced {n : Node} (hA : ∀ a ∈ A, ∀ b, NodeLink s f a b → b ∈ A) (hn : n ∈ A)
    {t : Tree} (ht : s.objects[n.1]? = some (.tree t)) {e : TreeEntry} (he : e ∈ t.entries)
    {w w' : TreeWalk} (hf : Faithful s (gate.map (·.limit)) w.sizes)
    (h : Entered s f gate n.2 w e w') :
    Advanced s gate A (takable s f gate A) (named s A) w w' := by
  have hnamed : e.id ∈ named s A := ⟨n, hn, t, ht, e, he, rfl⟩
  cases h with
  | pushed hk hd =>
    have hchild := hA n hn _ ⟨t, ht, e, he, hk, hd, rfl⟩
    exact .push hf hchild (.inl ⟨_, hchild, rfl⟩)
  | pruned hk hd => exact .gap hf hnamed
  | kept hk hm hkeep sizes hf' =>
    refine .take hf' (hkeep.imp_right fun hkeep => .inr ⟨?_, hkeep⟩)
    exact ⟨n, hn, t, ht, e, he, hk, hm, rfl⟩
  | refused hk hr sizes hf' => exact .gap hf' hnamed

theorem Entered.done {path : String} {w w' : TreeWalk} {e : TreeEntry}
    (h : Entered s f gate path w e w') : EntryDone f (Refuses s gate) w' path e := by
  have hself : ∀ X : BTreeSet ObjectId, e.id ∈ X.insert e.id :=
    fun X => (BTreeSet.mem_insert _ _ _).mpr (.inl rfl)
  unfold EntryDone
  cases h with
  | pushed hk hd =>
    simp only [hk, hd, if_true]
    exact mem_push w _
  | pruned hk hd =>
    simp only [hk, hd]
    exact hself _
  | kept hk hm hkeep sizes hf =>
    simp only [hk, hm, if_true]
    exact .inl (hself _)
  | refused hk hr sizes hf =>
    simp only [hk]
    split_ifs with hm
    · exact .inr ⟨hself _, hr hm⟩
    · exact hself _

/-- The entries of one node, from first to last. -/
theorem entries_advanced {n : Node} (hA : ∀ a ∈ A, ∀ b, NodeLink s f a b → b ∈ A) (hn : n ∈ A)
    {t : Tree} (ht : s.objects[n.1]? = some (.tree t)) {es : List TreeEntry}
    (hes : ∀ e ∈ es, e ∈ t.entries) {w w' : TreeWalk}
    (hf : Faithful s (gate.map (·.limit)) w.sizes)
    (h : es.foldlM (sizedEntry s f gate n.2) w = .ok w') :
    Advanced s gate A (takable s f gate A) (named s A) w w' ∧
      ∀ e ∈ es, EntryDone f (Refuses s gate) w' n.2 e := by
  induction es generalizing w with
  | nil =>
    cases h
    exact ⟨.refl hf, by simp⟩
  | cons e es ih =>
    rw [List.foldlM_cons] at h
    obtain ⟨w₁, hstep, h⟩ := Fallible.bind_ok h
    have hentered := sizedEntry_entered hstep hf
    have hadv := hentered.advanced hA hn ht (hes e (by simp)) hf
    obtain ⟨hrest, hdone⟩ := ih (fun e' he' => hes e' (by simp [he'])) hadv.sizes h
    refine ⟨hadv.trans hrest, ?_⟩
    intro e' he'
    rcases List.mem_cons.mp he' with rfl | he'
    · exact hentered.done.mono hrest.grows (fun _ h => h)
    · exact hdone e' he'

/-- A finished descent: what it started with is kept, every expanded node is settled. -/
structure Descended (s : Store) (f : PrefixFilter) (gate : Option SizeGate) (A : Set Node)
    (refused : ObjectId → Prop) (w w' : TreeWalk) : Prop where
  grows : Grows w w'
  sizes : Faithful s (gate.map (·.limit)) w'.sizes
  settled : ∀ n ∈ w'.expanded, NodeDone s f refused w' n
  taken : ∀ x ∈ w'.included, x ∈ w.included ∨ x ∈ takable s f gate A
  gapped : ∀ x ∈ w'.gaps, x ∈ w.gaps ∨ x ∈ named s A

/-- Every expanded node waits on the stack or is settled. -/
def Settled (s : Store) (f : PrefixFilter) (refused : ObjectId → Prop) (w : TreeWalk) : Prop :=
  ∀ n ∈ w.expanded, n ∈ w.stack ∨ NodeDone s f refused w n

/-- One popped node: its entries settle it. -/
theorem settled_pop {refused : ObjectId → Prop} (hr : ∀ x, Refuses s gate x → refused x) {n : Node}
    {stack : List Node} {t : Tree} (ht : s.objects[n.1]? = some (.tree t)) {w w' : TreeWalk}
    (hs : Settled s f refused w) (hw : w.stack = n :: stack)
    (hadv : Advanced s gate A (takable s f gate A) (named s A) { w with stack := stack } w')
    (hdone : ∀ e ∈ t.entries, EntryDone f (Refuses s gate) w' n.2 e) :
    Settled s f refused w' := by
  have hgrows : Grows w w' := ⟨hadv.grows.included, hadv.grows.gaps, hadv.grows.expanded⟩
  intro m hm
  rcases hadv.fresh m hm with hold | hnew
  · rcases hs m hold with hwait | hmdone
    · rw [hw] at hwait
      rcases List.mem_cons.mp hwait with rfl | hwait
      · exact .inr ⟨t, ht, fun e he => (hdone e he).mono ⟨fun _ h => h, fun _ h => h,
          fun _ h => h⟩ hr⟩
      · exact .inl (hadv.waiting m hwait)
    · exact .inr (hmdone.mono hgrows (fun _ h => h))
  · exact .inl hnew

theorem loop_descended (hA : ∀ a ∈ A, ∀ b, NodeLink s f a b → b ∈ A) {refused : ObjectId → Prop}
    (hr : ∀ x, Refuses s gate x → refused x) {fuel : Nat} {w w' : TreeWalk}
    (h : walkTreeSizedLoop s f gate fuel w = .ok w')
    (hf : Faithful s (gate.map (·.limit)) w.sizes) (hstack : ∀ n ∈ w.stack, n ∈ A)
    (hs : Settled s f refused w) : Descended s f gate A refused w w' := by
  induction fuel generalizing w with
  | zero => cases h
  | succ fuel ih =>
    rw [walkTreeSizedLoop] at h
    cases hw : w.stack with
    | nil =>
      simp only [hw] at h
      cases h
      refine ⟨⟨fun _ h => h, fun _ h => h, fun _ h => h⟩, hf, ?_, fun _ h => .inl h,
        fun _ h => .inl h⟩
      intro n hn
      have := hs n hn
      simpa [hw] using this
    | cons n stack =>
      have hn : n ∈ A := hstack n (by simp [hw])
      simp only [hw] at h
      obtain ⟨o, hget, h⟩ := Fallible.bind_ok h
      have ho := Store.get_eq_ok_iff.mp hget
      cases o with
      | tree t =>
        obtain ⟨w₁, hfold, h⟩ := Fallible.bind_ok h
        obtain ⟨hadv, hdone⟩ := entries_advanced (w := { w with stack := stack }) hA hn ho
          (fun _ h => h) hf hfold
        have hstack₁ : ∀ m ∈ w₁.stack, m ∈ A := by
          intro m hm
          rcases hadv.stack m hm with hold | hnew
          · exact hstack m (by rw [hw]; exact List.mem_cons_of_mem _ hold)
          · exact hnew
        have hrest := ih h hadv.sizes hstack₁ (settled_pop hr ho hs hw hadv hdone)
        exact {
          grows := ⟨fun x hx => hrest.grows.included x (hadv.grows.included x hx),
            fun x hx => hrest.grows.gaps x (hadv.grows.gaps x hx),
            fun m hm => hrest.grows.expanded m (hadv.grows.expanded m hm)⟩
          sizes := hrest.sizes
          settled := hrest.settled
          taken := fun x hx => (hrest.taken x hx).elim (hadv.taken x) .inr
          gapped := fun x hx => (hrest.gapped x hx).elim (hadv.gapped x) .inr }
      | _ => cases h

end Descent

end Reachable

end SrcControl
