import SrcControl.Gitio.Import

/-!
# What an import that succeeds has done

Each helper that succeeds has put what the history says and returned the id the history
says. Over the walk: every commit resolved has its own id, and what was put belongs to the
commits met below the tip before a trusted mark.
-/

namespace SrcControl

namespace Gitio

section Helpers

variable {α β : Type} {log log' : List Object}

theorem bind_ok {x : Import α} {f : α → Import β} {b : β}
    (h : (x >>= f).run log = (.ok b, log')) :
    ∃ a mid, x.run log = (.ok a, mid) ∧ (f a).run mid = (.ok b, log') := by
  rw [ExceptT.run_bind] at h
  simp only [Bind.bind, StateT.bind] at h
  cases hx : x.run log with
  | mk r mid =>
    rw [hx] at h
    cases r with
    | error e => cases h
    | ok a => exact ⟨a, mid, rfl, h⟩

theorem run_bind {x : Import α} {f : α → Import β} {a : α} {mid : List Object}
    (h : x.run log = (.ok a, mid)) : (x >>= f).run log = (f a).run mid := by
  rw [ExceptT.run_bind]
  simp only [Bind.bind, StateT.bind, h]

theorem orFail_ok {e : ImportError} {x : Option α} {a : α}
    (h : (orFail e x).run log = (.ok a, log')) : x = some a ∧ log' = log := by
  cases x with
  | none => cases h
  | some a =>
    cases h
    exact ⟨rfl, rfl⟩

theorem orFail_bind_ok {e : ImportError} {x : Option α} {f : α → Import β} {b : β}
    (h : (orFail e x >>= f).run log = (.ok b, log')) :
    ∃ a, x = some a ∧ (f a).run log = (.ok b, log') := by
  cases x with
  | none => cases h
  | some a => exact ⟨a, rfl, h⟩

theorem put_ok {idOf : Object → ObjectId} {o : Object} {id : ObjectId}
    (h : (put idOf o).run log = (.ok id, log')) : id = idOf o ∧ log' = log ++ [o] := by
  cases h
  exact ⟨rfl, rfl⟩

/-- Pairs of two lists of one length, with one value for each key. -/
theorem eq_of_zip {xs : List α} {ys zs : List β} (hy : xs.length = ys.length)
    (hz : xs.length = zs.length) {R : α → β → Prop} (hys : ∀ q ∈ xs.zip ys, R q.1 q.2)
    (hzs : ∀ q ∈ xs.zip zs, R q.1 q.2)
    (hfun : ∀ x ∈ xs, ∀ y z, R x y → R x z → y = z) : ys = zs := by
  induction xs generalizing ys zs with
  | nil =>
    rw [List.length_eq_zero_iff.mp hy.symm, List.length_eq_zero_iff.mp hz.symm]
  | cons x xs ih =>
    cases ys with
    | nil => cases hy
    | cons y ys =>
      cases zs with
      | nil => cases hz
      | cons z zs =>
        have hhead := hfun x (by simp) y z (hys (x, y) (by simp)) (hzs (x, z) (by simp))
        have htail : ys = zs := ih (by simpa using hy) (by simpa using hz)
          (fun q hq => hys q (by simp [hq])) (fun q hq => hzs q (by simp [hq]))
          (fun x' hx' => hfun x' (by simp [hx']))
        rw [hhead, htail]

theorem mapM_orFail_ok {e : ImportError} {f : α → Option β} {xs : List α} {ys : List β}
    (h : (xs.mapM (fun x => orFail e (f x))).run log = (.ok ys, log')) :
    xs.length = ys.length ∧ (∀ q ∈ xs.zip ys, f q.1 = some q.2) ∧ log' = log := by
  induction xs generalizing ys log with
  | nil =>
    cases h
    exact ⟨rfl, by simp, rfl⟩
  | cons x xs ih =>
    rw [List.mapM_cons] at h
    obtain ⟨y, mid, hx, h⟩ := bind_ok h
    obtain ⟨ys', mid', hxs, h⟩ := bind_ok h
    cases h
    obtain ⟨hy, rfl⟩ := orFail_ok hx
    obtain ⟨hlen, hall, rfl⟩ := ih hxs
    refine ⟨by simp [hlen], ?_, rfl⟩
    intro q hq
    rcases List.mem_cons.mp hq with rfl | hq
    · exact hy
    · exact hall q hq

end Helpers

section Trees

variable {idOf : Object → ObjectId} {repo : GitRepo}

theorem importEntries_ok {rec : List (Option GitEntry) → Import ObjectId}
    (hrec : ∀ sub log id log', (rec sub).run log = (.ok id, log') →
      ∃ ts os, EntriesImport idOf repo sub ts os ∧ id = idOf (.tree (Tree.new ts)) ∧
        log' = log ++ (os ++ [.tree (Tree.new ts)]))
    {es : List (Option GitEntry)} {ts : List TreeEntry} {log log' : List Object}
    (h : (importEntries idOf repo rec es).run log = (.ok ts, log')) :
    ∃ os, EntriesImport idOf repo es ts os ∧ log' = log ++ os := by
  induction es generalizing ts log with
  | nil =>
    cases h
    exact ⟨[], .nil, (List.append_nil _).symm⟩
  | cons e es ih =>
    cases e with
    | none => cases h
    | some e =>
      unfold importEntries at h
      cases hk : e.kind with
      | tree =>
        simp only [hk] at h
        obtain ⟨obj, ho, h⟩ := orFail_bind_ok h
        obtain ⟨sub, hsub, h⟩ := orFail_bind_ok h
        obtain ⟨id, mid, hid, h⟩ := bind_ok h
        obtain ⟨ts₂, mid', hrest, h⟩ := bind_ok h
        cases h
        obtain ⟨ts₁, os₁, htree, rfl, rfl⟩ := hrec _ _ _ _ hid
        obtain ⟨os₂, hentries, rfl⟩ := ih hrest
        exact ⟨_, .tree hk ho hsub htree hentries, by simp⟩
      | commit =>
        simp only [hk] at h
        obtain ⟨os, hrest, rfl⟩ := ih h
        exact ⟨os, .submodule hk hrest, rfl⟩
      | _ =>
        simp only [hk] at h
        obtain ⟨obj, ho, h⟩ := orFail_bind_ok h
        obtain ⟨id, mid, hid, h⟩ := bind_ok h
        obtain ⟨ts₂, mid', hrest, h⟩ := bind_ok h
        cases h
        obtain ⟨rfl, rfl⟩ := put_ok hid
        obtain ⟨os₂, hentries, rfl⟩ := ih hrest
        exact ⟨_, .blob (by simp [hk]) (by simp [hk]) ho hentries, by simp⟩

theorem importTree_ok {fuel : Nat} {es : List (Option GitEntry)} {id : ObjectId}
    {log log' : List Object} (h : (importTree idOf repo fuel es).run log = (.ok id, log')) :
    ∃ ts os, EntriesImport idOf repo es ts os ∧ id = idOf (.tree (Tree.new ts)) ∧
      log' = log ++ (os ++ [.tree (Tree.new ts)]) := by
  induction fuel generalizing es id log log' with
  | zero => cases h
  | succ fuel ih =>
    obtain ⟨ts, mid, hes, hput⟩ := bind_ok h
    obtain ⟨os, himport, rfl⟩ := importEntries_ok (fun _ _ _ _ h => ih h) hes
    obtain ⟨rfl, rfl⟩ := put_ok hput
    exact ⟨ts, os, himport, rfl, by simp⟩

theorem findCommit_ok {oid : GitId} {c : GitCommit} {log log' : List Object}
    (h : (findCommit repo oid).run log = (.ok c, log')) : IsCommit repo oid c ∧ log' = log := by
  obtain ⟨obj, ho, h⟩ := orFail_bind_ok h
  obtain ⟨commit, hc, h⟩ := orFail_bind_ok h
  obtain ⟨rfl, hlog⟩ := orFail_ok h
  exact ⟨⟨obj, ho, hc⟩, hlog⟩

theorem importCommit_ok {fuel : Nat} {mapped : Mapped} {c : GitCommit} {id : ObjectId}
    {log log' : List Object}
    (h : (importCommit idOf repo fuel mapped c).run log = (.ok id, log')) :
    ∃ ids sn os, c.parents.length = ids.length ∧
      (∀ q ∈ c.parents.zip ids, mapped q.1 = some q.2) ∧ Builds idOf repo c ids sn os ∧
      id = idOf (.snapshot sn) ∧ log' = log ++ os := by
  obtain ⟨ids, mid, hids, h⟩ := bind_ok h
  obtain ⟨hlen, hall, hmid⟩ := mapM_orFail_ok hids
  rw [hmid] at h
  obtain ⟨obj, ho, h⟩ := orFail_bind_ok h
  obtain ⟨entries, hentries, h⟩ := orFail_bind_ok h
  obtain ⟨root, mid', htree, h⟩ := bind_ok h
  obtain ⟨sig, hsig, h⟩ := orFail_bind_ok h
  obtain ⟨ts, os, hes, rfl, rfl⟩ := importTree_ok htree
  obtain ⟨rfl, rfl⟩ := put_ok h
  exact ⟨ids, _, _, hlen, hall, ⟨obj, entries, ts, os, sig, ho, hentries, hes, hsig, rfl, rfl⟩,
    rfl, by simp⟩

/-! ## The history fixes the ids -/

theorem EntriesImport.unique {es : List (Option GitEntry)} {ts ts' : List TreeEntry}
    {os os' : List Object} (h : EntriesImport idOf repo es ts os)
    (h' : EntriesImport idOf repo es ts' os') : ts = ts' ∧ os = os' := by
  induction h generalizing ts' os' with
  | nil =>
    cases h'
    exact ⟨rfl, rfl⟩
  | tree hk ho hsub _ _ ih ihrest =>
    cases h' with
    | tree hk' ho' hsub' h hrest =>
      rw [ho] at ho'
      cases ho'
      rw [hsub] at hsub'
      cases hsub'
      obtain ⟨rfl, rfl⟩ := ih h
      obtain ⟨rfl, rfl⟩ := ihrest hrest
      exact ⟨rfl, rfl⟩
    | submodule hk' _ =>
      rw [hk] at hk'
      cases hk'
    | blob ht _ _ _ => exact absurd hk ht
  | submodule hk _ ih =>
    cases h' with
    | tree hk' _ _ _ _ =>
      rw [hk] at hk'
      cases hk'
    | submodule _ h => exact ih h
    | blob _ hc _ _ => exact absurd hk hc
  | blob ht hc ho _ ih =>
    cases h' with
    | tree hk' _ _ _ _ => exact absurd hk' ht
    | submodule hk' _ => exact absurd hk' hc
    | blob _ _ ho' h =>
      rw [ho] at ho'
      cases ho'
      obtain ⟨rfl, rfl⟩ := ih h
      exact ⟨rfl, rfl⟩

theorem IsCommit.unique {oid : GitId} {c c' : GitCommit} (h : IsCommit repo oid c)
    (h' : IsCommit repo oid c') : c = c' := by
  obtain ⟨obj, ho, hc⟩ := h
  obtain ⟨obj', ho', hc'⟩ := h'
  rw [ho] at ho'
  cases ho'
  rw [hc] at hc'
  cases hc'
  rfl

theorem Builds.unique {c : GitCommit} {ids : List ObjectId} {sn sn' : Snapshot}
    {os os' : List Object} (h : Builds idOf repo c ids sn os)
    (h' : Builds idOf repo c ids sn' os') : sn = sn' ∧ os = os' := by
  obtain ⟨obj, entries, ts, os₁, sig, ho, he, hes, hsig, rfl, rfl⟩ := h
  obtain ⟨obj', entries', ts', os₁', sig', ho', he', hes', hsig', rfl, rfl⟩ := h'
  rw [ho] at ho'
  cases ho'
  rw [he] at he'
  cases he'
  rw [hsig] at hsig'
  cases hsig'
  obtain ⟨rfl, rfl⟩ := hes.unique hes'
  exact ⟨rfl, rfl⟩

theorem Imports.unique {oid : GitId} {id id' : ObjectId} (h : Imports idOf repo oid id)
    (h' : Imports idOf repo oid id') : id = id' := by
  induction h generalizing id' with
  | @commit oid c ids sn os hc hlen hp hb ih =>
    cases h' with
    | commit hc' hlen' hp' hb' =>
      obtain rfl := hc.unique hc'
      have hids := eq_of_zip hlen hlen' (R := fun p id => Imports idOf repo p id) hp hp'
        (fun p hpm y z hy hz => by
          have hlook : ∃ id₀, ∀ id', Imports idOf repo p id' → id₀ = id' := by
            obtain ⟨i, hi, rfl⟩ := List.getElem_of_mem hpm
            have hi' : i < ids.length := hlen ▸ hi
            have hq : (c.parents[i], ids[i]) ∈ c.parents.zip ids := by
              have hz : i < (c.parents.zip ids).length := by
                rw [List.length_zip]
                omega
              have hget := List.getElem_mem hz
              rwa [List.getElem_zip] at hget
            exact ⟨ids[i], fun id' h => ih _ hq h⟩
          obtain ⟨id₀, hid⟩ := hlook
          rw [← hid y hy, ← hid z hz])
      subst hids
      rw [(hb.unique hb').1]

end Trees

/-! ## The walk -/

/-- A mark that the import takes for its commit: its snapshot is stored. -/
def Trusted (fromHex : String → Option GitId) (s : Store) (known : List (String × ObjectId))
    (oid : GitId) : Prop :=
  ∃ mark ∈ known, s.contains mark.2 = true ∧ fromHex mark.1 = some oid

/-- The commits below `tip` that are met before a trusted one. -/
inductive Reimported (repo : GitRepo) (trusted : GitId → Prop) (tip : GitId) : GitId → Prop
  | tip (h : ¬ trusted tip) : Reimported repo trusted tip tip
  | parent {a b : GitId} (h : Reimported repo trusted tip a) (hp : ParentOf repo a b)
      (hb : ¬ trusted b) : Reimported repo trusted tip b

/-- A commit the walk comes across: the tip, or a parent of one it imports. -/
def Met (repo : GitRepo) (trusted : GitId → Prop) (tip oid : GitId) : Prop :=
  oid = tip ∨ ∃ a, Reimported repo trusted tip a ∧ ParentOf repo a oid

theorem Met.reimported {repo : GitRepo} {trusted : GitId → Prop} {tip oid : GitId}
    (h : Met repo trusted tip oid) (ht : ¬ trusted oid) : Reimported repo trusted tip oid := by
  rcases h with rfl | ⟨a, ha, hp⟩
  · exact .tip ht
  · exact .parent ha hp ht

/-- The walk on its way: what is resolved, what was put, and what still waits. -/
structure Underway (idOf : Object → ObjectId) (repo : GitRepo) (trusted : GitId → Prop)
    (tip : GitId) (stack : List (GitId × Bool)) (w : Walk) (log : List Object) : Prop where
  right : ∀ oid id, w.mapped oid = some id → Imports idOf repo oid id
  kept : ∀ oid, trusted oid → (w.mapped oid).isSome
  built : ∀ oid, (w.mapped oid).isSome → ¬ trusted oid → Reimported repo trusted tip oid ∧
    ∀ p, ParentOf repo oid p → (w.mapped p).isSome
  puts : ∀ o, o ∈ log ↔ ∃ oid, (w.mapped oid).isSome ∧ ¬ trusted oid ∧ Owns idOf repo oid o
  waiting : ∀ e ∈ stack, Met repo trusted tip e.1

section Loop

variable {idOf : Object → ObjectId} {repo : GitRepo} {trusted : GitId → Prop} {tip : GitId}
  {toHex : GitId → String} {treeFuel : Nat}

theorem Underway.pop {e : GitId × Bool} {stack : List (GitId × Bool)} {w : Walk}
    {log : List Object} (h : Underway idOf repo trusted tip (e :: stack) w log) :
    Underway idOf repo trusted tip stack w log :=
  ⟨h.right, h.kept, h.built, h.puts, fun e he => h.waiting e (List.mem_cons_of_mem _ he)⟩

theorem mem_pushParents {mapped : Mapped} {oid : GitId} {c : GitCommit}
    {stack : List (GitId × Bool)} {e : GitId × Bool} (h : e ∈ pushParents mapped oid c stack) :
    e.1 ∈ c.parents ∨ e.1 = oid ∨ e ∈ stack := by
  rcases List.mem_append.mp h with h | h
  · rw [List.mem_reverse, List.mem_map] at h
    obtain ⟨p, hp, rfl⟩ := h
    exact .inl (List.mem_of_mem_filter hp)
  · rcases List.mem_cons.mp h with rfl | h
    · exact .inr (.inl rfl)
    · exact .inr (.inr h)

theorem not_trusted_of_unmapped {e : GitId × Bool} {stack : List (GitId × Bool)} {w : Walk}
    {log : List Object} (h : Underway idOf repo trusted tip (e :: stack) w log) {oid : GitId}
    (hm : ¬ (w.mapped oid).isSome) : ¬ trusted oid := fun ht => hm (h.kept oid ht)

theorem record_self (w : Walk) (oid : GitId) (id : ObjectId) :
    (w.record toHex oid id).mapped oid = some id := Function.update_self ..

theorem record_of_ne (w : Walk) {oid p : GitId} (id : ObjectId) (h : p ≠ oid) :
    (w.record toHex oid id).mapped p = w.mapped p := Function.update_of_ne h ..

/-- One commit built: its parents are resolved, so is it now, and its objects are put. -/
theorem Underway.record {oid : GitId} {ready : Bool} {stack : List (GitId × Bool)} {w : Walk}
    {log log' : List Object} (h : Underway idOf repo trusted tip ((oid, ready) :: stack) w log)
    (hm : ¬ (w.mapped oid).isSome) {c : GitCommit} (hc : IsCommit repo oid c) {id : ObjectId}
    (hrun : (importCommit idOf repo treeFuel w.mapped c).run log = (.ok id, log')) :
    Underway idOf repo trusted tip stack (w.record toHex oid id) log' := by
  obtain ⟨ids, sn, os, hlen, hall, hb, rfl, rfl⟩ := importCommit_ok hrun
  have himports : ∀ q ∈ c.parents.zip ids, Imports idOf repo q.1 q.2 :=
    fun q hq => h.right q.1 q.2 (hall q hq)
  have hnew := not_trusted_of_unmapped h hm
  have hgrow : ∀ p, (w.mapped p).isSome →
      ((w.record toHex oid (idOf (.snapshot sn))).mapped p).isSome := by
    intro p hp
    by_cases hpo : p = oid
    · rw [hpo, record_self]
      rfl
    · rwa [record_of_ne w _ hpo]
  have hcases : ∀ p, ((w.record toHex oid (idOf (.snapshot sn))).mapped p).isSome →
      p = oid ∨ (w.mapped p).isSome := by
    intro p hp
    by_cases hpo : p = oid
    · exact .inl hpo
    · rw [record_of_ne w _ hpo] at hp
      exact .inr hp
  refine ⟨?_, fun p hp => hgrow p (h.kept p hp), ?_, ?_, h.pop.waiting⟩
  · intro p id hp
    by_cases hpo : p = oid
    · subst hpo
      rw [record_self] at hp
      cases hp
      exact .commit hc hlen himports hb
    · rw [record_of_ne w _ hpo] at hp
      exact h.right p id hp
  · intro p hp hpt
    rcases hcases p hp with rfl | hold
    · refine ⟨(h.waiting _ (List.mem_cons_self ..)).reimported hnew, ?_⟩
      rintro q ⟨c', hc', hq⟩
      obtain rfl := hc.unique hc'
      obtain ⟨i, hi, rfl⟩ := List.getElem_of_mem hq
      refine hgrow _ ?_
      have hz : i < (c.parents.zip ids).length := by
        rw [List.length_zip]
        omega
      have hpair := hall _ (List.getElem_mem hz)
      rw [List.getElem_zip] at hpair
      rw [hpair]
      rfl
    · obtain ⟨hre, hparents⟩ := h.built p hold hpt
      exact ⟨hre, fun q hq => hgrow q (hparents q hq)⟩
  · intro o
    rw [List.mem_append, h.puts]
    constructor
    · rintro (⟨p, hp, hpt, hown⟩ | ho)
      · exact ⟨p, hgrow p hp, hpt, hown⟩
      · exact ⟨oid, by rw [record_self]; rfl, hnew, c, ids, sn, os, hc, hlen, himports, hb, ho⟩
    · rintro ⟨p, hp, hpt, hown⟩
      rcases hcases p hp with rfl | hold
      · obtain ⟨c', ids', sn', os', hc', hlen', himports', hb', ho⟩ := hown
        obtain rfl := hc.unique hc'
        have hids : ids = ids' := eq_of_zip hlen hlen' himports himports'
          (fun p _ y z hy hz => hy.unique hz)
        subst hids
        obtain ⟨-, rfl⟩ := hb.unique hb'
        exact .inr ho
      · exact .inl ⟨p, hold, hpt, hown⟩

theorem importLoop_underway {fuel : Nat} {stack : List (GitId × Bool)} {w w' : Walk}
    {log log' : List Object}
    (h : (importLoop idOf repo toHex treeFuel fuel stack w).run log = (.ok w', log'))
    (hu : Underway idOf repo trusted tip stack w log) :
    Underway idOf repo trusted tip [] w' log' := by
  induction fuel generalizing stack w log with
  | zero => cases h
  | succ fuel ih =>
    cases stack with
    | nil =>
      cases h
      exact hu
    | cons e stack =>
      obtain ⟨oid, ready⟩ := e
      rw [importLoop] at h
      by_cases hm : (w.mapped oid).isSome
      · rw [if_pos hm] at h
        exact ih h hu.pop
      · rw [if_neg hm] at h
        obtain ⟨c, mid, hc, h⟩ := bind_ok h
        obtain ⟨hcommit, hmid⟩ := findCommit_ok hc
        rw [hmid] at h
        cases ready with
        | true =>
          obtain ⟨id, mid', hrun, hrest⟩ := bind_ok h
          exact ih hrest (hu.record hm hcommit hrun)
        | false =>
          refine ih h ⟨hu.right, hu.kept, hu.built, hu.puts, fun e he => ?_⟩
          have hre := (hu.waiting _ (List.mem_cons_self ..)).reimported
            (not_trusted_of_unmapped hu hm)
          rcases mem_pushParents he with hp | hself | hold
          · exact .inr ⟨oid, hre, c, hcommit, hp⟩
          · rw [hself]
            exact hu.waiting _ (List.mem_cons_self ..)
          · exact hu.waiting e (List.mem_cons_of_mem _ hold)

end Loop

/-! ## The marks -/

/-- The marks earlier imports of the history have left. -/
def Learnt (idOf : Object → ObjectId) (repo : GitRepo) (hex : HexText)
    (known : List (String × ObjectId)) : Prop :=
  ∀ mark ∈ known, ∃ oid, mark.1 = hex.toHex oid ∧ Imports idOf repo oid mark.2

section Seed

variable {idOf : Object → ObjectId} {repo : GitRepo} {hex : HexText} {s : Store}

theorem seed_spec {known : List (String × ObjectId)} (h : Learnt idOf repo hex known) :
    (∀ oid id, seed hex.fromHex s known oid = some id → Imports idOf repo oid id) ∧
      ∀ oid, (seed hex.fromHex s known oid).isSome ↔ Trusted hex.fromHex s known oid := by
  have hfold : ∀ (marks : List (String × ObjectId)) (mapped : Mapped),
      (∀ mark ∈ marks, mark ∈ known) → (∀ oid id, mapped oid = some id → Imports idOf repo oid id) →
      (∀ oid id, marks.foldl (seedMark hex.fromHex s) mapped oid = some id →
        Imports idOf repo oid id) ∧
      ∀ oid, (marks.foldl (seedMark hex.fromHex s) mapped oid).isSome ↔
        (mapped oid).isSome ∨ Trusted hex.fromHex s marks oid := by
    intro marks
    induction marks with
    | nil => exact fun mapped _ hm => ⟨hm, fun oid => by simp [Trusted]⟩
    | cons mark marks ih =>
      intro mapped hsub hm
      obtain ⟨oid₀, hhex, himport⟩ := h mark (hsub mark (by simp))
      have hdecode : hex.fromHex mark.1 = some oid₀ := hhex ▸ hex.fromHex_toHex oid₀
      rw [List.foldl_cons]
      by_cases hc : s.contains mark.2 = true
      · have hstep : seedMark hex.fromHex s mapped mark =
            Function.update mapped oid₀ (some mark.2) := by
          simp only [seedMark, if_pos hc, hdecode]
        obtain ⟨hright, hkeys⟩ := ih (Function.update mapped oid₀ (some mark.2))
          (fun m hm => hsub m (by simp [hm])) (fun oid id hid => by
            by_cases ho : oid = oid₀
            · subst ho
              rw [Function.update_self] at hid
              cases hid
              exact himport
            · rw [Function.update_of_ne ho] at hid
              exact hm oid id hid)
        rw [hstep]
        refine ⟨hright, fun oid => (hkeys oid).trans ?_⟩
        by_cases ho : oid = oid₀
        · subst ho
          simp [Trusted, hc, hdecode]
        · rw [Function.update_of_ne ho]
          simp [Trusted, hdecode, hc, Ne.symm ho]
      · have hstep : seedMark hex.fromHex s mapped mark = mapped := if_neg hc
        obtain ⟨hright, hkeys⟩ := ih mapped (fun m hm => hsub m (by simp [hm])) hm
        rw [hstep]
        refine ⟨hright, fun oid => (hkeys oid).trans ?_⟩
        simp [Trusted, hc]
  obtain ⟨hright, hkeys⟩ := hfold known (fun _ => none) (fun _ h => h) (by simp)
  exact ⟨hright, fun oid => (hkeys oid).trans (by simp)⟩

theorem importHistory_ok {fuel treeFuel : Nat} {branch : String}
    {known : List (String × ObjectId)} {report : ImportReport} {log : List Object}
    (hlearnt : Learnt idOf repo hex known)
    (h : (importHistory idOf repo hex fuel treeFuel s branch known).run [] = (.ok report, log)) :
    ∃ tip, repo.branches branch = some tip ∧ Imports idOf repo tip report.tip ∧
      ∀ o, o ∈ log ↔ ∃ oid, Reimported repo (Trusted hex.fromHex s known) tip oid ∧
        Owns idOf repo oid o := by
  obtain ⟨tip, htip, h⟩ := orFail_bind_ok h
  obtain ⟨w, mid, hloop, h⟩ := bind_ok h
  obtain ⟨id, hid, h⟩ := orFail_bind_ok h
  cases h
  obtain ⟨hright, hkeys⟩ := seed_spec (s := s) hlearnt
  have hstart : Underway idOf repo (Trusted hex.fromHex s known) tip [(tip, false)]
      ⟨seed hex.fromHex s known, []⟩ [] := by
    refine ⟨hright, fun oid ht => (hkeys oid).mpr ht, fun oid hs hn => ?_, fun o => ?_, ?_⟩
    · exact absurd ((hkeys oid).mp hs) hn
    · simp only [List.not_mem_nil, false_iff, not_exists]
      rintro oid ⟨hs, hn, -⟩
      exact hn ((hkeys oid).mp hs)
    · intro e he
      rw [List.mem_singleton.mp he]
      exact .inl rfl
  have hend := importLoop_underway hloop hstart
  refine ⟨tip, htip, hend.right tip id hid, fun o => (hend.puts o).trans ?_⟩
  have hreached : ∀ oid, Reimported repo (Trusted hex.fromHex s known) tip oid →
      (w.mapped oid).isSome ∧ ¬ Trusted hex.fromHex s known oid := by
    intro oid hre
    induction hre with
    | tip ht => exact ⟨by rw [hid]; rfl, ht⟩
    | parent _ hp hb ih => exact ⟨(hend.built _ ih.1 ih.2).2 _ hp, hb⟩
  constructor
  · rintro ⟨oid, hs, hn, hown⟩
    exact ⟨oid, (hend.built oid hs hn).1, hown⟩
  · rintro ⟨oid, hre, hown⟩
    exact ⟨oid, (hreached oid hre).1, (hreached oid hre).2, hown⟩

end Seed

end Gitio

end SrcControl
