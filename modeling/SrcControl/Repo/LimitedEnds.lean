import SrcControl.Repo.LimitedExact

/-!
# A filtered walk ends

On an acyclic store the walk spends what the graph unfolds to below the tips. Given that
much fuel it fails only on an object that is missing or is not what it is named as.
-/

namespace SrcControl

open SlashPath

namespace Reachable

open SizeGate

/-- Each stored object outweighs all it names. -/
def Weighs (s : Store) (W : ObjectId → Nat) : Prop :=
  ∀ (id : ObjectId) (o : Object), s.objects[id]? = some o →
    (o.links.map (fun l => W l.2)).sum < W id

theorem weighs_of_acyclic {s : Store} (h : s.Acyclic) : ∃ W, Weighs s W := by
  let children : ObjectId → List ObjectId := fun id =>
    (s.objects[id]?).elim [] (fun o => o.links.map (·.2))
  have hmem : ∀ a b, b ∈ children a ↔ s.Link a b := by
    intro a b
    simp only [children, Store.Link]
    cases s.objects[a]? with
    | none => simp
    | some o => simp
  have hwf : WellFounded (fun b a => b ∈ children a) := by
    have hsource : ∀ a b, s.Link a b → a ∈ {x | x ∈ s.objects.keys} := by
      rintro a b ⟨o, ho, -⟩
      exact (BTreeMap.mem_keys_iff _ _).mpr ⟨o, ho⟩
    have hlink := Unfolding.wellFounded_of_acyclic (List.finite_toSet s.objects.keys) hsource h
    simpa only [hmem] using hlink
  refine ⟨Unfolding.weight hwf, fun id o ho => ?_⟩
  have hchildren : children id = o.links.map (·.2) := by
    simp only [children, ho, Option.elim_some]
  rw [Unfolding.weight_eq hwf id, hchildren, List.map_map]
  exact Nat.lt_add_of_pos_left Nat.one_pos

theorem weighs_link {s : Store} {W : ObjectId → Nat} (hW : Weighs s W) {a b : ObjectId} {o : Object}
    {r : Role} (ho : s.objects[a]? = some o) (hl : (r, b) ∈ o.links) : W b < W a := by
  have hle := List.single_le_sum (l := o.links.map (fun l => W l.2)) (by simp) (W b)
    (List.mem_map.mpr ⟨(r, b), hl, rfl⟩)
  exact hle.trans_lt (hW a o ho)

theorem sum_sublist_le {W : ObjectId → Nat} {xs ys : List ObjectId} (h : xs.Sublist ys) :
    (xs.map W).sum ≤ (ys.map W).sum :=
  (h.map W).sum_le_sum (by simp)

/-- What the nodes on the stack weigh. -/
def TreeWalk.weight (W : ObjectId → Nat) (w : TreeWalk) : Nat :=
  (w.stack.map (fun n => W n.1)).sum

section Descent

variable {s : Store} {f : PrefixFilter} {gate : Option SizeGate} {W : ObjectId → Nat}

theorem push_weight (w : TreeWalk) (n : Node) : (w.push n).weight W ≤ w.weight W + W n.1 := by
  unfold TreeWalk.push TreeWalk.weight
  split_ifs
  · exact Nat.le_add_right _ _
  · rw [List.map_cons, List.sum_cons, Nat.add_comm]

theorem Entered.weight {path : String} {w w' : TreeWalk} {e : TreeEntry}
    (h : Entered s f gate path w e w') : w'.weight W ≤ w.weight W + W e.id := by
  cases h with
  | pushed hk hd => exact push_weight w _
  | pruned hk hd => exact Nat.le_add_right _ _
  | kept hk hm hkeep sizes hf => exact Nat.le_add_right _ _
  | refused hk hr sizes hf => exact Nat.le_add_right _ _

theorem sizedEntry_isOk {path : String} {w : TreeWalk} {e : TreeEntry}
    (h : e.kind = .blob → f.matchesPath (join path e.name) = true → e.id ∉ w.included →
      Decides s gate e.id) : ∃ w', sizedEntry s f gate path w e = .ok w' := by
  unfold sizedEntry
  cases hk : e.kind with
  | tree =>
    simp only
    split_ifs <;> exact ⟨_, rfl⟩
  | blob =>
    have hkeep : ∃ r, keepBlob s f gate w (join path e.name) e.id = .ok r := by
      unfold keepBlob
      by_cases hm : f.matchesPath (join path e.name) = true
      · cases gate with
        | none => exact ⟨_, if_pos hm⟩
        | some g =>
          by_cases hin : w.included.contains e.id = true
          · exact ⟨_, by rw [if_pos hm]; exact if_pos hin⟩
          · obtain ⟨r, hr⟩ := keeps_isOk (h hk hm (fun hmem =>
              hin (Std.ExtTreeSet.contains_iff_mem.mpr hmem)))
            exact ⟨r, by rw [if_pos hm]; exact (if_neg hin).trans hr⟩
      · exact ⟨_, if_neg hm⟩
    obtain ⟨r, hr⟩ := hkeep
    simp only [hr]
    exact ⟨_, rfl⟩

variable {A : Set Node}

theorem entries_isOk (hA : ∀ a ∈ A, ∀ b, NodeLink s f a b → b ∈ A) {n : Node} (hn : n ∈ A)
    {t : Tree} (ht : s.objects[n.1]? = some (.tree t)) {inc : BTreeSet ObjectId}
    (hdec : ∀ x ∈ matchedBlobs s f A, x ∉ inc → Decides s gate x) {es : List TreeEntry}
    (hes : ∀ e ∈ es, e ∈ t.entries) {w : TreeWalk} (hinc : ∀ x ∈ inc, x ∈ w.included)
    (hf : Faithful s (gate.map (·.limit)) w.sizes) :
    ∃ w', es.foldlM (sizedEntry s f gate n.2) w = .ok w' ∧
      w'.weight W ≤ w.weight W + (es.map (fun e => W e.id)).sum := by
  induction es generalizing w with
  | nil => exact ⟨w, rfl, Nat.le_add_right _ _⟩
  | cons e es ih =>
    have he : e ∈ t.entries := hes e (by simp)
    have hok : ∃ w', sizedEntry s f gate n.2 w e = .ok w' :=
      sizedEntry_isOk (fun hk hm hin => hdec e.id ⟨n, hn, t, ht, e, he, hk, hm, rfl⟩
        (fun h => hin (hinc _ h)))
    obtain ⟨w₁, hstep⟩ := hok
    have hentered := sizedEntry_entered hstep hf
    have hadv := hentered.advanced hA hn ht he hf
    obtain ⟨w', hfold, hweight⟩ := ih (fun e' he' => hes e' (by simp [he']))
      (fun x hx => hadv.grows.included x (hinc x hx)) hadv.sizes
    refine ⟨w', ?_, ?_⟩
    · rw [List.foldlM_cons, hstep]
      exact hfold
    · have hstepW : w₁.weight W ≤ w.weight W + W e.id := hentered.weight
      rw [List.map_cons, List.sum_cons]
      omega

theorem loop_isOk (hW : Weighs s W) (hA : ∀ a ∈ A, ∀ b, NodeLink s f a b → b ∈ A)
    (hread : ∀ n ∈ A, ∃ t, s.objects[n.1]? = some (.tree t)) {inc : BTreeSet ObjectId}
    (hdec : ∀ x ∈ matchedBlobs s f A, x ∉ inc → Decides s gate x) {fuel : Nat} {w : TreeWalk}
    (hinc : ∀ x ∈ inc, x ∈ w.included) (hf : Faithful s (gate.map (·.limit)) w.sizes)
    (hstack : ∀ n ∈ w.stack, n ∈ A) (hfuel : w.weight W < fuel) :
    ∃ w', walkTreeSizedLoop s f gate fuel w = .ok w' := by
  induction fuel generalizing w with
  | zero => exact absurd hfuel (Nat.not_lt_zero _)
  | succ fuel ih =>
    rw [walkTreeSizedLoop]
    cases hw : w.stack with
    | nil => exact ⟨w, rfl⟩
    | cons n stack =>
      have hn : n ∈ A := hstack n (by simp [hw])
      obtain ⟨t, ht⟩ := hread n hn
      obtain ⟨w₁, hfold, hweight⟩ := entries_isOk (W := W) (w := { w with stack := stack }) hA hn ht
        hdec (fun _ h => h) hinc hf
      obtain ⟨hadv, -⟩ := entries_advanced (w := { w with stack := stack }) hA hn ht
        (fun _ h => h) hf hfold
      have hrest : w.weight W = W n.1 + ({ w with stack := stack } : TreeWalk).weight W := by
        simp only [TreeWalk.weight, hw, List.map_cons, List.sum_cons]
      have htree : (t.entries.map (fun e => W e.id)).sum < W n.1 := by
        have hsum := hW n.1 _ ht
        rw [Object.links, List.map_map] at hsum
        exact hsum
      obtain ⟨w', hloop⟩ := ih (fun x hx => hadv.grows.included x (hinc x hx)) hadv.sizes
        (fun m hm => by
          rcases hadv.stack m hm with hold | hnew
          · exact hstack m (by rw [hw]; exact List.mem_cons_of_mem _ hold)
          · exact hnew) (by omega)
      refine ⟨w', ?_⟩
      simp only [Store.get_eq_ok_iff.mpr ht, hfold, bind, Except.bind]
      exact hloop

theorem walkTreeSized_isOk (hW : Weighs s W) {root : ObjectId} {fuel : Nat}
    (hread : ∀ n, Worklist.Reach (NodeLink s f) (root, "") n → ∃ t, s.objects[n.1]? = some (.tree t))
    {inc : BTreeSet ObjectId} {st : SizedState}
    (hdec : ∀ x ∈ matchedBlobs s f {n | Worklist.Reach (NodeLink s f) (root, "") n}, x ∉ inc →
      Decides s gate x) (hf : Faithful s (gate.map (·.limit)) st.sizes) (hfuel : W root < fuel) :
    ∃ out, walkTreeSized s fuel (some f) gate root inc st = .ok out := by
  have hpush : Advanced s gate {n | Worklist.Reach (NodeLink s f) (root, "") n}
      {x | x = root} ∅ (st.walk inc) ((st.walk inc).push (root, "")) := .push hf .refl rfl
  obtain ⟨w', hloop⟩ := loop_isOk (w := (st.walk inc).push (root, "")) hW
    (A := {n | Worklist.Reach (NodeLink s f) (root, "") n}) (fun a ha b hb => ha.tail hb) hread
    hdec hpush.grows.included hpush.sizes (fun n hn => by
      rcases hpush.stack n hn with hold | hnew
      · cases hold
      · exact hnew) ((push_weight _ _).trans_lt (by simpa [TreeWalk.weight, SizedState.walk] using hfuel))
  simp only [walkTreeSized]
  simp only [SizedState.walk] at hloop
  simp only [hloop]
  exact ⟨_, rfl⟩

end Descent

theorem successors_weight {s : Store} {W : ObjectId → Nat} (hW : Weighs s W) {x : ObjectId}
    {o : Object} (ho : s.objects[x]? = some o) : ((successors o).map W).sum < W x := by
  refine (Nat.lt_of_le_of_lt ?_ (hW x o ho))
  have hmap : (successors o).map W = ((successors o).map (fun y => (Role.tip, y))).map
      (fun l => W l.2) := by
    rw [List.map_map]
    rfl
  rw [hmap]
  refine (List.Sublist.map _ ?_).sum_le_sum (by simp)
  cases o with
  | snapshot sn =>
    rw [Object.links, List.append_assoc]
    exact List.sublist_append_left _ _
  | manifest m => exact List.sublist_append_right _ _
  | _ => exact List.nil_sublist _

/-- A node popped off the queue weighs more than the successors it queues. -/
theorem queue_weight {s : Store} {W : ObjectId → Nat} (hW : Weighs s W) {x : ObjectId} {o : Object}
    (ho : s.objects[x]? = some o) {queue new : List ObjectId} {treeFuel fuel : Nat}
    (hnew : new.Sublist (successors o)) (htree : ∀ y ∈ x :: queue, W y ≤ treeFuel)
    (hfuel : ((x :: queue).map W).sum < fuel + 1) :
    (∀ y ∈ queue ++ new, W y ≤ treeFuel) ∧ ((queue ++ new).map W).sum < fuel := by
  constructor
  · intro y hy
    rcases List.mem_append.mp hy with hy | hy
    · exact htree y (List.mem_cons_of_mem _ hy)
    · have hlink := weighs_link hW ho (mem_successors.mp (hnew.subset hy))
      exact hlink.le.trans (htree x (List.mem_cons_self ..))
  · have h₁ := sum_sublist_le (W := W) hnew
    have h₂ := successors_weight hW ho
    rw [List.map_cons, List.sum_cons] at hfuel
    rw [List.map_append, List.sum_append]
    omega

section Run

variable {s : Store} {f : PrefixFilter} {tips : List ObjectId} {limit : Option Nat}
  {held : BTreeSet ObjectId} {kind : ObjectId → Role} {W : ObjectId → Nat}

/-- Away from the tips only blobs that no tip holds are still to be measured. -/
theorem Walked.decides {x : ObjectId} {queue : List ObjectId} {inc : BTreeSet ObjectId}
    {st : SizedState} (h : Walked s f tips limit held kind (x :: queue) inc st)
    (hread : Readable s f tips limit held) {y : ObjectId}
    (hy : y ∈ matchedBlobs s f (rootNodes s f (history s tips))) (hin : y ∉ inc) :
    Decides s (sizeGate tips limit held x) y := by
  by_cases hx : x ∈ tips
  · exact decides_of_keeps (keeps_of_tip hx)
  · rw [sizeGate_of_not_tip hx]
    have hgone : ∀ t ∈ tips, t ∉ x :: queue := by
      intro t ht hin
      rcases List.mem_cons.mp hin with rfl | hin
      · exact hx ht
      · exact hx (h.head_tip ⟨t, ht, hin⟩)
    rcases hread.blobs y hy with ⟨n, ⟨t, ht, hn⟩, hrest⟩ | hd
    · have hdone := h.tipNodes t ht (hgone t ht)
      rcases Walked.matched_of_done hdone ⟨n, ⟨t, rfl, hn⟩, hrest⟩ with hmem | ⟨-, hno⟩
      · exact absurd hmem hin
      · exact hno.elim
    · exact hd

theorem walkSnapshots_isOk (hk : s.Kinded kind) (hW : Weighs s W)
    (hread : Readable s f tips limit held) {treeFuel fuel : Nat} {queue : List ObjectId}
    {inc : BTreeSet ObjectId} {st : SizedState}
    (hw : Walked s f tips limit held kind queue inc st)
    (htree : ∀ x ∈ queue, W x ≤ treeFuel) (hfuel : (queue.map W).sum < fuel) :
    ∃ out, walkSnapshots s (walkRoots s f tips limit held treeFuel) fuel queue inc st = .ok out := by
  induction fuel generalizing queue inc st with
  | zero => exact absurd hfuel (Nat.not_lt_zero _)
  | succ fuel ih =>
    cases queue with
    | nil => exact ⟨_, rfl⟩
    | cons x queue =>
      have hx : x ∈ history s tips := hw.queued x (by simp)
      obtain ⟨o, ho, hfit⟩ := hread.snapshots x hx
      have hxW := htree x (by simp)
      rw [walkSnapshots, Store.get_eq_ok_iff.mpr ho]
      cases o with
      | snapshot sn =>
        have hsub : {n | Worklist.Reach (NodeLink s f) (sn.root, "") n} ⊆
            rootNodes s f (history s tips) := fun n hn => ⟨x, hx, sn, ho, hn⟩
        have hmarks : ∀ y ∈ inc, y ∈ markAll sn.secrets.values (markNew sn.parents queue inc).2 :=
          fun y hy => mem_markAll.mpr
            (.inr (((markNew_spec sn.parents queue inc).1 y).mpr (.inr hy)))
        have hf : Faithful s ((sizeGate tips limit held x).map (·.limit)) st.sizes := by
          rw [sizeGate_limit]
          exact hw.sizes
        have hrun : ∃ out, walkRoots s f tips limit held treeFuel x sn.root
            (markAll sn.secrets.values (markNew sn.parents queue inc).2) st = .ok out :=
          walkTreeSized_isOk hW (fun n hn => hread.trees n (hsub hn))
            (fun y hy hin => hw.decides hread (matchedBlobs_mono hsub hy)
              (fun h => hin (hmarks y h))) hf
            ((weighs_link hW ho (root_link sn)).trans_le hxW)
        obtain ⟨⟨inc₁, st₁⟩, hrun⟩ := hrun
        obtain ⟨new, hq, hv⟩ := visited_snapshot ho hw.sizes hw.nodes hrun
        have hsub' : new.Sublist (successors (.snapshot sn)) := by
          obtain ⟨-, new', hq', hsub', -⟩ := markNew_spec sn.parents queue inc
          rw [hq, List.append_cancel_left_eq] at hq'
          exact hq' ▸ hsub'
        have hnew := queue_weight hW ho hsub' htree hfuel
        obtain ⟨out, hout⟩ := ih (hw.next hk ho rfl hv) hnew.1 hnew.2
        refine ⟨out, ?_⟩
        rw [← hq] at hout
        have hbind : (walkRoots s f tips limit held treeFuel x sn.root
            (markAll sn.secrets.values (markNew sn.parents queue inc).2) st >>= fun r =>
            walkSnapshots s (walkRoots s f tips limit held treeFuel) fuel
              (markNew sn.parents queue inc).1 r.1 r.2) = .ok out := by
          rw [hrun]
          exact hout
        exact hbind
      | manifest m =>
        obtain ⟨new, hq, hv⟩ := visited_manifest f tips held hk ho queue inc hw.sizes
        have hsub : new.Sublist (successors (.manifest m)) := by
          obtain ⟨-, new', hq', hsub', -⟩ := markNew_spec (m.base :: m.anchors ++ m.prev.toList)
            queue (markAll m.closure inc)
          rw [hq, List.append_cancel_left_eq] at hq'
          exact hq' ▸ hsub'
        have hnew := queue_weight hW ho hsub htree hfuel
        obtain ⟨out, hout⟩ := ih (hw.next hk ho rfl hv) hnew.1 hnew.2
        rw [← hq] at hout
        exact ⟨out, hout⟩
      | _ => cases hfit

/-! ## A whole request -/

theorem walked_start (s : Store) (f : PrefixFilter) (tips : List ObjectId) (limit : Option Nat)
    (held : BTreeSet ObjectId) (kind : ObjectId → Role) :
    Walked s f tips limit held kind (markNew tips [] ∅).1 (markNew tips [] ∅).2 ⟨∅, ∅, ∅⟩ := by
  obtain ⟨hmem, new, hq, hsub, -, hall⟩ := markNew_spec tips [] ∅
  have hempty : ∀ y : ObjectId, y ∉ (∅ : BTreeSet ObjectId) := fun y => Std.ExtTreeSet.not_mem_empty
  have hin : ∀ y, y ∈ (markNew tips [] ∅).2 → y ∈ tips :=
    fun y hy => ((hmem y).mp hy).resolve_right (hempty y)
  have hqueue : ∀ y ∈ tips, y ∈ (markNew tips [] ∅).1 := by
    intro y hy
    rw [hq]
    exact hall y hy (hempty y)
  have hback : ∀ y ∈ (markNew tips [] ∅).1, y ∈ tips := by
    intro y hy
    rw [hq] at hy
    exact hsub.subset hy
  exact {
    tipsFirst := ⟨_, [], (List.append_nil _).symm, hback, by simp⟩
    queued := fun y hy => tips_subset_history (hback y hy)
    tipsIn := fun t ht => (hmem t).mpr (.inl ht)
    sizes := fun l _ id keep h => by simp at h
    taken := fun y hy => .tip (tips_subset_history (hin y hy))
    gapped := fun y hy => absurd hy (hempty y)
    done := fun y hy _ => .inl (hqueue y (hin y hy))
    nodes := fun n hn => absurd hn (Finset.notMem_empty n)
    exempt := fun _ n hn => absurd hn (Finset.notMem_empty n)
    tipNodes := fun t ht hno => absurd (hqueue t ht) hno }

theorem kind_of_fits (hk : s.Kinded kind) {x : ObjectId} {o : Object} (ho : s.objects[x]? = some o)
    (hfit : Role.tip.fits o = true) : kind x = .tip := by
  have hfits := hk.fits x o ho
  cases o <;> cases hx : kind x <;> simp_all [Role.fits]

/-- A request that succeeds returns what the finished walk took, and the gaps it left. -/
theorem limited_walked (hk : s.Kinded kind) {fuel : Nat} {r : Limited}
    (h : reachableObjectsLimited s fuel tips (some f) limit held = .ok r) :
    (∀ t ∈ tips, kind t = .tip) ∧ ∃ inc st, Walked s f tips limit held kind [] inc st ∧
      r = ⟨inc, st.gaps.filter (fun id => !inc.contains id)⟩ := by
  rw [reachableObjectsLimited, if_neg (by simp)] at h
  obtain ⟨⟨inc, st⟩, hrun, h⟩ := Fallible.bind_ok h
  cases h
  refine ⟨fun t ht => ?_, inc, st,
    walkSnapshots_walked hk hrun (walked_start s f tips limit held kind), rfl⟩
  obtain ⟨-, new, hq, -, -, hall⟩ := markNew_spec tips [] ∅
  have hin : t ∈ (markNew tips [] ∅).1 := by
    rw [hq]
    exact hall t ht Std.ExtTreeSet.not_mem_empty
  obtain ⟨o, ho, hfit⟩ := walkSnapshots_read hrun t hin
  exact kind_of_fits hk ho hfit

/-- With what it reads at hand and the fuel its tips unfold to, a request succeeds. -/
theorem limited_isOk (hk : s.Kinded kind) (hac : s.Acyclic)
    (hread : Readable s f tips limit held) :
    ∃ fuel, ∀ n, fuel ≤ n → ∃ r, reachableObjectsLimited s n tips (some f) limit held = .ok r := by
  obtain ⟨W, hW⟩ := weighs_of_acyclic hac
  let start := (markNew tips [] ∅).1
  refine ⟨(start.map W).sum + 1, fun n hn => ?_⟩
  have hrun : ∃ out, walkSnapshots s (walkRoots s f tips limit held n) n start
      (markNew tips [] ∅).2 ⟨∅, ∅, ∅⟩ = .ok out := by
    refine walkSnapshots_isOk hk hW hread (walked_start s f tips limit held kind) ?_ ?_
    · intro x hx
      have hle := List.single_le_sum (l := start.map W) (by simp) (W x)
        (List.mem_map.mpr ⟨x, hx, rfl⟩)
      omega
    · exact hn
  obtain ⟨out, hrun⟩ := hrun
  refine ⟨⟨out.1, out.2.gaps.filter (fun id => !out.1.contains id)⟩, ?_⟩
  rw [reachableObjectsLimited, if_neg (by simp)]
  have hbind : (walkSnapshots s (walkRoots s f tips limit held n) n start
      (markNew tips [] ∅).2 ⟨∅, ∅, ∅⟩ >>=
        fun o => pure (⟨o.1, o.2.gaps.filter (fun id => !o.1.contains id)⟩ : Limited)) =
      .ok ⟨out.1, out.2.gaps.filter (fun id => !out.1.contains id)⟩ := by
    rw [hrun]
    rfl
  exact hbind

end Run

end Reachable

end SrcControl
