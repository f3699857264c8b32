import SrcControl.Repo.GcSafe

/-!
# What a pass of `gc` leaves loose

A pass that succeeds leaves exactly the loose files of unmarked objects that the grace window
still covers: a file is judged by the copy that a reader sees, so an old flat file stays behind a
young sharded one.
-/

namespace SrcControl.Gc

open CrashTrace ObjectsDir

/-- The two places of a loose file. -/
def copies (d : Dir) (id : ObjectId) : Option File × Option File := (d.sharded[id]?, d.flat[id]?)

/-- The copy that a reader sees goes. -/
def behind (c : Option File × Option File) : Option File × Option File :=
  match c.1 with
  | some _ => (none, c.2)
  | none => (none, none)

/-- One visit of the sweep. -/
def visit (now grace : Nat) (isMarked : Bool) (c : Option File × Option File) :
    Option File × Option File :=
  if isMarked || (c.1.or c.2).any (fun file => oldEnough now grace file.mtime) then behind c else c

/-- What the sweep leaves of an unmarked object. -/
def spared (now grace : Nat) (c : Option File × Option File) : Option File × Option File :=
  match c.1 with
  | some file =>
    if oldEnough now grace file.mtime then
      (none, c.2.filter (fun file => !oldEnough now grace file.mtime))
    else c
  | none => (none, c.2.filter (fun file => !oldEnough now grace file.mtime))

section

variable {env : Env} {c : ObjectId → Option File × Option File}

/-- The loose files are `c`. -/
def Loose (c : ObjectId → Option File × Option File) (s : Machine Dir Handle) : Prop :=
  ∀ id, copies s.disk id = c id

/-- No claim about a pass that fails. -/
abbrev Anyhow : Machine Dir Handle → Prop := fun _ => True

theorem call_loose {f : Dir → Dir} {c' : ObjectId → Option File × Option File}
    (h : ∀ d, (∀ id, copies d id = c id) → ∀ id, copies (f d) id = c' id) :
    Meets (Loose c) (call env.fates failure f : DirM Unit) (fun _ => Loose c') Anyhow :=
  Meets.call (fun s hs => h s.disk hs) (fun _ _ => trivial) (fun _ _ => trivial)

theorem touch_loose : Meets (Loose c) (touch env) (fun _ => Loose c) Anyhow :=
  call_loose (fun _ h => h)

theorem orStop_loose {α : Type} (x : Except (Checked.Stop CoreError) α)
    {P : Machine Dir Handle → Prop} (h : ∀ s, P s → Loose c s) :
    Meets P (orStop x) (fun _ => Loose c) Anyhow :=
  Meets.orThrow (fun _ _ => h) (fun _ _ => trivial)

theorem reloadPacks_loose :
    Meets (Loose c) (reloadPacks env) (fun _ => Loose c) Anyhow := by
  refine touch_loose.bind (fun _ => ?_)
  refine Meets.bind (Q := fun _ => Loose c) (Meets.modify (fun _ h => h)) (fun _ => ?_)
  refine Meets.get (fun s hs => ?_)
  exact (orStop_loose _ (fun t ht => ht ▸ hs)).bind (fun _ => Meets.modify (fun _ h => h))

theorem writePack_loose (ids : List ObjectId) :
    Meets (Loose c) (writePack env ids) (fun _ => Loose c) Anyhow := by
  unfold writePack
  refine Meets.get (fun s hs => ?_)
  refine (orStop_loose _ (fun t ht => ht ▸ hs)).bind (fun _ => ?_)
  refine (orStop_loose _ (fun _ h => h)).bind (fun files => ?_)
  refine Meets.ite (fun _ => fun _ _ => trivial) (fun _ => ?_)
  refine (call_loose (f := putPack _ files.1) (fun _ h => h)).bind (fun _ => ?_)
  refine (call_loose (f := putIdx _ files.2) (fun _ h => h)).bind (fun _ => ?_)
  exact reloadPacks_loose.bind (fun _ => Meets.pure _ (fun _ h => h))

theorem deletePack_loose (stem : String) :
    Meets (Loose c) (deletePack env stem) (fun _ => Loose c) Anyhow :=
  (call_loose (f := removePack stem) (fun _ h => h)).bind (fun _ =>
    (call_loose (f := removeIdx stem) (fun _ h => h)).bind (fun _ => reloadPacks_loose))

/-! ## One file -/

theorem copies_removeLoose (id x : ObjectId) (d : Dir) :
    copies (removeLoose id d) x = if x = id then behind (copies d x) else copies d x := by
  unfold removeLoose
  cases hs : d.sharded[id]? with
  | some file =>
    have hin : d.sharded.contains id = true := by
      rw [Std.ExtTreeMap.contains_eq_isSome_getElem?, hs]
      rfl
    rw [if_pos hin]
    by_cases hx : x = id
    · subst hx
      rw [if_pos rfl, copies, BTreeMap.getElem?_erase, if_pos rfl]
      simp only [copies, behind, hs]
    · rw [if_neg hx, copies, BTreeMap.getElem?_erase, if_neg (Ne.symm hx), copies]
  | none =>
    have hin : ¬ d.sharded.contains id = true := by
      rw [Std.ExtTreeMap.contains_eq_isSome_getElem?, hs]
      simp
    rw [if_neg hin]
    by_cases hx : x = id
    · subst hx
      rw [if_pos rfl, copies, BTreeMap.getElem?_erase, if_pos rfl]
      simp only [copies, behind, hs]
    · rw [if_neg hx, copies, BTreeMap.getElem?_erase, if_neg (Ne.symm hx), copies]

theorem existingLoose_eq (d : Dir) (id : ObjectId) :
    existingLoose d id = (copies d id).1.or (copies d id).2 := rfl

theorem delete_loose (id : ObjectId) :
    Meets (Loose c) (delete env id)
      (fun _ => Loose (fun x => if x = id then behind (c x) else c x)) Anyhow := by
  unfold delete
  refine Meets.get (fun s hs => ?_)
  refine Meets.ite (fun _ => ?_) (fun hnone => ?_)
  · refine Meets.bind (Q := fun _ => Loose (fun x => if x = id then behind (c x) else c x)) ?_
      (fun _ => Meets.modify (fun _ h => h))
    refine (call_loose (fun d hd x => ?_)).weaken (fun t ht => ht ▸ hs) (fun _ _ h => h)
      (fun _ h => h)
    rw [copies_removeLoose, hd]
  · refine Meets.modify (fun t ht x => ?_)
    rw [ht]
    change copies s.disk x = if x = id then behind (c x) else c x
    rw [hs x]
    split_ifs with hx
    · subst hx
      rw [existingLoose_eq, hs x] at hnone
      cases h₁ : (c x).1 with
      | some file => simp [h₁] at hnone
      | none =>
        cases h₂ : (c x).2 with
        | some file => simp [h₁, h₂] at hnone
        | none => rw [behind, h₁, Prod.ext_iff]; exact ⟨h₁, h₂⟩
    · rfl

/-- What one visit of the listing does to the loose files. -/
theorem sweepOne_loose (now grace : Nat) (reachable : BTreeSet ObjectId) (stats : GcStats)
    (id : ObjectId) :
    Meets (Loose c) (sweepOne env now grace reachable stats id)
      (fun _ => Loose (fun x => if x = id then visit now grace (reachable.contains x) (c x)
        else c x)) Anyhow := by
  have hdelete : ∀ (stats' : GcStats), visit now grace (reachable.contains id) (c id) =
      behind (c id) → Meets (Loose c) (do delete env id; pure stats')
        (fun _ => Loose (fun x => if x = id then visit now grace (reachable.contains x) (c x)
          else c x)) Anyhow := by
    intro stats' hvisit
    refine (delete_loose id).bind (fun _ => Meets.pure stats' (fun s hs x => ?_))
    rw [hs x]
    change (if x = id then behind (c x) else c x) =
      if x = id then visit now grace (reachable.contains x) (c x) else c x
    split_ifs with hx
    · rw [hx, hvisit]
    · rfl
  unfold sweepOne
  refine Meets.ite (fun hmarked => hdelete stats ?_) (fun hmarked => ?_)
  · rw [visit, hmarked]
    rfl
  · have hmarked' : reachable.contains id = false := Bool.eq_false_iff.mpr hmarked
    have hmtime : Meets (Loose c) (looseMtime env id)
        (fun mtime s => Loose c s ∧ mtime = ((c id).1.or (c id).2).map (·.mtime)) Anyhow := by
      unfold looseMtime
      refine Meets.get (fun s hs => ?_)
      rw [existingLoose_eq, hs id]
      cases (c id).1.or (c id).2 with
      | none => exact Meets.pure none (fun t ht => ⟨ht ▸ hs, rfl⟩)
      | some file =>
        exact (touch_loose.weaken (fun t ht => ht ▸ hs) (fun _ _ h => h) (fun _ h => h)).bind
          (fun _ => Meets.pure _ (fun _ h => ⟨h, rfl⟩))
    refine hmtime.bind (fun mtime => Meets.ite (fun hold => ?_) (fun hold => ?_))
    · intro s hs
      refine hdelete _ ?_ s hs.1
      rw [hs.2, Option.any_map] at hold
      rw [visit, hmarked', Bool.false_or, if_pos hold]
    · refine Meets.pure _ (fun s hs x => ?_)
      rw [hs.1 x]
      change c x = if x = id then visit now grace (reachable.contains x) (c x) else c x
      split_ifs with hx
      · rw [hs.2, Option.any_map] at hold
        rw [hx, visit, hmarked', Bool.false_or, if_neg hold]
      · rfl

/-! ## The listing -/

theorem sweep_loose (now grace : Nat) (reachable : BTreeSet ObjectId) (listed : List ObjectId)
    (c : ObjectId → Option File × Option File) (stats : GcStats) :
    Meets (Loose c) (listed.foldlM (sweepOne env now grace reachable) stats)
      (fun _ => Loose (fun x =>
        (visit now grace (reachable.contains x))^[listed.count x] (c x))) Anyhow := by
  induction listed generalizing c stats with
  | nil => exact Meets.pure stats (fun _ h => h)
  | cons id listed ih =>
    refine Meets.bind (sweepOne_loose now grace reachable stats id) (fun stats' => ?_)
    refine (ih _ stats').weaken (fun _ h => h) (fun _ s hs x => ?_) (fun _ h => h)
    rw [hs x]
    beta_reduce
    by_cases hx : x = id
    · subst hx
      rw [List.count_cons_self, Function.iterate_succ_apply, if_pos rfl]
    · rw [List.count_cons_of_ne (Ne.symm hx), if_neg hx]

theorem count_keys {V : Type} (m : BTreeMap ObjectId V) (id : ObjectId) :
    m.keys.count id = (m[id]?).toList.length := by
  cases hm : m[id]? with
  | none =>
    rw [List.count_eq_zero_of_not_mem]
    · rfl
    · rw [BTreeMap.mem_keys_iff]
      rintro ⟨v, hv⟩
      rw [hm] at hv
      cases hv
  | some v =>
    rw [List.count_eq_one_of_mem Std.ExtTreeMap.nodup_keys
      ((BTreeMap.mem_keys_iff _ _).mpr ⟨v, hm⟩)]
    rfl

/-- An id is listed once for each place that has a file. -/
theorem count_ids (d : Dir) (id : ObjectId) : (env.ids d).count id =
    (copies d id).1.toList.length + (copies d id).2.toList.length := by
  rw [(env.ids_perm d).count_eq, List.count_append, count_keys, count_keys]
  rfl

/-- As many visits as there are files settle what is left. -/
theorem visits (now grace : Nat) (isMarked : Bool) (c : Option File × Option File) :
    (visit now grace isMarked)^[c.1.toList.length + c.2.toList.length] c =
      if isMarked then (none, none) else spared now grace c := by
  obtain ⟨sharded, flat⟩ := c
  cases isMarked with
  | true => cases sharded <;> cases flat <;> rfl
  | false =>
    cases sharded with
    | none =>
      cases flat with
      | none => rfl
      | some f =>
        cases hf : oldEnough now grace f.mtime <;>
          simp [visit, behind, spared, hf, Option.filter_some]
    | some g =>
      cases flat with
      | none => cases hg : oldEnough now grace g.mtime <;> simp [visit, behind, spared, hg]
      | some f =>
        cases hg : oldEnough now grace g.mtime <;> cases hf : oldEnough now grace f.mtime <;>
          simp [visit, behind, spared, hg, hf, Option.filter_some]

theorem collect_loose (now grace : Nat) (reachable : BTreeSet ObjectId) (stats : GcStats) :
    Meets (Loose c) (collect env now grace reachable stats)
      (fun _ => Loose (fun x => if reachable.contains x then (none, none)
        else spared now grace (c x))) Anyhow := by
  have hpack : Meets (Loose c) (packMarked env reachable) (fun _ => Loose c) Anyhow := by
    unfold packMarked
    refine Meets.ite (fun _ => Meets.pure none (fun _ h => h)) (fun _ => ?_)
    exact (writePack_loose _).bind (fun name => Meets.pure (some name) (fun _ h => h))
  have hlist : Meets (Loose c) (listLoose env) (fun listed s => Loose c s ∧
      ∀ x, listed.count x = (c x).1.toList.length + (c x).2.toList.length) Anyhow := by
    refine touch_loose.bind (fun _ => Meets.get (fun s hs => Meets.pure _ (fun t ht => ?_)))
    refine ⟨ht ▸ hs, fun x => ?_⟩
    rw [count_ids, hs x]
  unfold collect
  refine hpack.bind (fun keep => hlist.bind (fun listed => ?_))
  refine Meets.bind (Q := fun _ => Loose (fun x => if reachable.contains x then (none, none)
    else spared now grace (c x))) ?_ (fun swept => ?_)
  · intro s hs
    refine ((sweep_loose now grace reachable listed c _).weaken (fun _ h => h)
      (fun _ t ht x => ?_) (fun _ h => h)) s hs.1
    rw [ht x]
    beta_reduce
    rw [hs.2 x, visits]
  · cases keep with
    | none => exact Meets.pure swept (fun _ h => h)
    | some keep =>
      refine Meets.get (fun s hs => ?_)
      refine (Meets.foldlM (I := fun _ => Loose (fun x => if reachable.contains x then (none, none)
        else spared now grace (c x))) (fun stats' stem _ => ?_) swept).weaken
        (fun t ht => ht ▸ hs) (fun _ _ h => h) (fun _ h => h)
      unfold dropOne
      refine Meets.ite (fun _ => Meets.pure _ (fun _ h => h)) (fun _ => ?_)
      exact (deletePack_loose stem).bind (fun _ => Meets.pure _ (fun _ h => h))

/-- A pass that succeeds has marked, and collected from there. -/
theorem run_ok {d : Dir} {h : Handle} {fuel now grace : Nat} {cutoff : Int} {r : GcRepo}
    {out : GcStats × GcRepo} {s : Machine Dir Handle}
    (hrun : run env fuel now grace cutoff r (opened d h) = .ok out s) :
    ∃ marked, mark fuel cutoff r (view env d h) = .ok (marked, out.2) ∧
      ∃ stats, collect env now grace marked stats (opened d h) = .ok out.1 s := by
  unfold run at hrun
  change ((orThrow ((mark fuel cutoff r (view env d h)).mapError Checked.Stop.error) : DirM _)
    >>= _) _ = _ at hrun
  cases hmark : mark fuel cutoff r (view env d h) with
  | error e =>
    rw [hmark] at hrun
    cases hrun
  | ok marked =>
    rw [hmark] at hrun
    obtain ⟨m, s₁, hm, hrun⟩ := Fallible.state_bind_ok hrun
    cases hm
    obtain ⟨stats, s₂, hcollect, hrun⟩ := Fallible.state_bind_ok hrun
    cases hrun
    exact ⟨marked.1, rfl, _, hcollect⟩

/-- A pass that succeeds takes every loose copy of a marked object away, and of an unmarked one
exactly what the grace window does not cover. -/
theorem gc_leaves_loose {d : Dir} {h : Handle} {fuel now grace : Nat} {cutoff : Int} {r : GcRepo}
    {out : GcStats × GcRepo} {s : Machine Dir Handle}
    (hrun : run env fuel now grace cutoff r (opened d h) = .ok out s) :
    ∃ marked, mark fuel cutoff r (view env d h) = .ok (marked, out.2) ∧
      ∀ id, copies s.disk id =
        if marked.contains id then (none, none) else spared now grace (copies d id) := by
  obtain ⟨marked, hmark, stats, hcollect⟩ := run_ok hrun
  have hloose : Loose (copies d) (opened d h) := fun _ => rfl
  exact ⟨marked, hmark, (collect_loose now grace marked stats).ok hloose hcollect⟩

end

/-- A sharded file past the window and a flat one within it, which no record names. -/
def strayDir : Dir where
  sharded := (∅ : BTreeMap ObjectId File).insert ⟨[1]⟩ ⟨[0], 0⟩
  flat := (∅ : BTreeMap ObjectId File).insert ⟨[2]⟩ ⟨[0], 95⟩
  packs := ∅
  idxs := ∅

theorem gc_leaves_loose_stray :
    ∃ out s, run firstEnv 9 100 10 0 (repoWith ∅) (opened strayDir ⟨∅, ∅⟩) = .ok out s ∧
      ∃ marked, mark 9 0 (repoWith ∅) (view firstEnv strayDir ⟨∅, ∅⟩) = .ok (marked, out.2) ∧
        ∀ id, copies s.disk id =
          if marked.contains id then (none, none) else spared 100 10 (copies strayDir id) := by
  cases hrun : run firstEnv 9 100 10 0 (repoWith ∅) (opened strayDir ⟨∅, ∅⟩) with
  | ok out s => exact ⟨out, s, rfl, gc_leaves_loose hrun⟩
  | error e s =>
    have hdone : (finished (run firstEnv 9 100 10 0 (repoWith ∅)
        (opened strayDir ⟨∅, ∅⟩))).1 = true := by rfl
    rw [hrun] at hdone
    cases hdone

end SrcControl.Gc
