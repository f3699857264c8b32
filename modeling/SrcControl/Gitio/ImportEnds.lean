import SrcControl.Gitio.ImportRuns

/-!
# An import without marks ends

Where the history imports at all, a walk with enough fuel resolves the tip: each commit's
parents are resolved by the time it comes up again, so the build finds them.
-/

namespace SrcControl

namespace Gitio

variable {idOf : Object → ObjectId} {repo : GitRepo}

/-- One bound for a list of properties that hold from some bound on. -/
theorem exists_bound {α : Type} {P : α → Nat → Prop} (xs : List α)
    (h : ∀ x ∈ xs, ∃ N, ∀ n, N ≤ n → P x n) : ∃ N, ∀ n, N ≤ n → ∀ x ∈ xs, P x n := by
  induction xs with
  | nil => exact ⟨0, by simp⟩
  | cons x xs ih =>
    obtain ⟨N, hN⟩ := h x (by simp)
    obtain ⟨M, hM⟩ := ih (fun y hy => h y (by simp [hy]))
    refine ⟨max N M, fun n hn y hy => ?_⟩
    rcases List.mem_cons.mp hy with rfl | hy
    · exact hN n (by omega)
    · exact hM n (by omega) y hy

theorem run_orFail {α β : Type} {e : ImportError} {x : Option α} {a : α} (h : x = some a)
    (f : α → Import β) (log : List Object) : (orFail e x >>= f).run log = (f a).run log := by
  subst h
  rfl

theorem IsCommit.find {oid : GitId} {c : GitCommit} (h : IsCommit repo oid c) (log : List Object) :
    (findCommit repo oid).run log = (.ok c, log) := by
  obtain ⟨obj, ho, hcommit⟩ := h
  exact (run_orFail ho _ _).trans ((run_orFail hcommit _ _).trans rfl)

theorem EntriesImport.total {es : List (Option GitEntry)} {ts : List TreeEntry}
    {os : List Object} (h : EntriesImport idOf repo es ts os) :
    ∃ N, ∀ n, N ≤ n → ∀ log,
      (importEntries idOf repo (importTree idOf repo n) es).run log = (.ok ts, log ++ os) := by
  induction h with
  | nil => exact ⟨0, fun n _ log => by rw [List.append_nil]; rfl⟩
  | @tree e es sub obj ts ts' os os' hk ho hsub h hrest ih ihrest =>
    obtain ⟨N, hN⟩ := ih
    obtain ⟨M, hM⟩ := ihrest
    refine ⟨max (N + 1) M, fun n hn log => ?_⟩
    have htree : (importTree idOf repo n sub).run log =
        (.ok (idOf (.tree (Tree.new ts))), log ++ os ++ [.tree (Tree.new ts)]) := by
      obtain ⟨k, rfl⟩ : ∃ k, n = k + 1 := ⟨n - 1, by omega⟩
      exact run_bind (hN k (by omega) log)
    unfold importEntries
    simp only [hk]
    refine (run_orFail ho _ _).trans ((run_orFail hsub _ _).trans ((run_bind htree).trans
      ((run_bind (hM n (by omega) _)).trans ?_)))
    simp only [List.append_assoc, List.singleton_append]
    rfl
  | submodule hk h ih =>
    obtain ⟨N, hN⟩ := ih
    refine ⟨N, fun n hn log => ?_⟩
    unfold importEntries
    simp only [hk]
    exact hN n hn log
  | @blob e es obj ts os ht hc ho h ih =>
    obtain ⟨N, hN⟩ := ih
    refine ⟨N, fun n hn log => ?_⟩
    have hput : (put idOf (.blob obj.data)).run log =
        (.ok (idOf (.blob obj.data)), log ++ [.blob obj.data]) := rfl
    unfold importEntries
    cases hk : e.kind with
    | tree => exact absurd hk ht
    | commit => exact absurd hk hc
    | _ =>
      refine (run_orFail ho _ _).trans ((run_bind hput).trans ((run_bind (hN n hn _)).trans ?_))
      rw [List.append_assoc]
      rfl

/-- Every id resolved so far is the one the history gives. -/
def Right (idOf : Object → ObjectId) (repo : GitRepo) (w : Walk) : Prop :=
  ∀ oid id, w.mapped oid = some id → Imports idOf repo oid id

/-- The walk gets through `items` and goes on with what lies below them on the stack. -/
def Resolves (idOf : Object → ObjectId) (repo : GitRepo) (toHex : GitId → String) (T : Nat)
    (items : List (GitId × Bool)) (oids : List GitId) : Prop :=
  ∀ stack w log, Right idOf repo w → ∃ m w' log',
    (∀ fuel, (importLoop idOf repo toHex T (fuel + m) (items ++ stack) w).run log =
      (importLoop idOf repo toHex T fuel stack w').run log') ∧
    (∀ oid ∈ oids, (w'.mapped oid).isSome) ∧
    (∀ p, (w.mapped p).isSome → (w'.mapped p).isSome) ∧ Right idOf repo w'

section Walk

variable {toHex : GitId → String} {T : Nat}

theorem importLoop_mapped {oid : GitId} {w : Walk} (h : (w.mapped oid).isSome) (fuel : Nat)
    (ready : Bool) (stack : List (GitId × Bool)) :
    importLoop idOf repo toHex T (fuel + 1) ((oid, ready) :: stack) w =
      importLoop idOf repo toHex T fuel stack w := by
  rw [importLoop, if_pos h]

theorem importLoop_waiting {oid : GitId} {w : Walk} (h : ¬ (w.mapped oid).isSome) {c : GitCommit}
    (hc : IsCommit repo oid c) (fuel : Nat) (stack : List (GitId × Bool)) (log : List Object) :
    (importLoop idOf repo toHex T (fuel + 1) ((oid, false) :: stack) w).run log =
      (importLoop idOf repo toHex T fuel (pushParents w.mapped oid c stack) w).run log := by
  rw [importLoop, if_neg h]
  exact run_bind (hc.find log)

theorem importLoop_ready {oid : GitId} {w : Walk} (h : ¬ (w.mapped oid).isSome) {c : GitCommit}
    (hc : IsCommit repo oid c) {id : ObjectId} {log log' : List Object}
    (hrun : (importCommit idOf repo T w.mapped c).run log = (.ok id, log')) (fuel : Nat)
    (stack : List (GitId × Bool)) :
    (importLoop idOf repo toHex T (fuel + 1) ((oid, true) :: stack) w).run log =
      (importLoop idOf repo toHex T fuel stack (w.record toHex oid id)).run log' := by
  rw [importLoop, if_neg h]
  exact (run_bind (hc.find log)).trans (run_bind hrun)

theorem resolves_list {oids : List GitId}
    (h : ∀ oid ∈ oids, Resolves idOf repo toHex T [(oid, false)] [oid]) :
    Resolves idOf repo toHex T (oids.map (fun p => (p, false))) oids := by
  induction oids with
  | nil => exact fun stack w log hw => ⟨0, w, log, fun fuel => rfl, by simp, fun p hp => hp, hw⟩
  | cons oid oids ih =>
    intro stack w log hw
    obtain ⟨m, w₁, log₁, hrun, hin, hmono, hw₁⟩ := h oid (by simp)
      (oids.map (fun p => (p, false)) ++ stack) w log hw
    obtain ⟨m', w₂, log₂, hrun', hin', hmono', hw₂⟩ := ih (fun o ho => h o (by simp [ho])) stack
      w₁ log₁ hw₁
    refine ⟨m' + m, w₂, log₂, fun fuel => ?_, fun o ho => ?_, fun p hp => hmono' p (hmono p hp),
      hw₂⟩
    · rw [← Nat.add_assoc]
      exact (hrun (fuel + m')).trans (hrun' fuel)
    · rcases List.mem_cons.mp ho with rfl | ho
      · exact hmono' _ (hin _ (by simp))
      · exact hin' o ho

theorem mapM_orFail_total {e : ImportError} {f : GitId → Option ObjectId} {xs : List GitId}
    {ys : List ObjectId} (hlen : xs.length = ys.length) (h : ∀ q ∈ xs.zip ys, f q.1 = some q.2)
    (log : List Object) : (xs.mapM (fun x => orFail e (f x))).run log = (.ok ys, log) := by
  induction xs generalizing ys with
  | nil =>
    obtain rfl := List.length_eq_zero_iff.mp hlen.symm
    rfl
  | cons x xs ih =>
    cases ys with
    | nil => cases hlen
    | cons y ys =>
      have hx : f x = some y := h (x, y) (by simp)
      have hhead : (orFail e (f x)).run log = (.ok y, log) := by
        rw [hx]
        rfl
      have hrest : (xs.mapM (fun x => orFail e (f x))).run log = (.ok ys, log) :=
        ih (by simpa using hlen) (fun q hq => h q (by simp [hq]))
      rw [List.mapM_cons]
      exact (run_bind hhead).trans ((run_bind hrest).trans rfl)

theorem Builds.total {c : GitCommit} {ids : List ObjectId} {sn : Snapshot} {os : List Object}
    (h : Builds idOf repo c ids sn os) (hlen : c.parents.length = ids.length) :
    ∃ N, ∀ n, N ≤ n → ∀ mapped : Mapped, (∀ q ∈ c.parents.zip ids, mapped q.1 = some q.2) →
      ∀ log, (importCommit idOf repo n mapped c).run log =
        (.ok (idOf (.snapshot sn)), log ++ os) := by
  obtain ⟨obj, entries, ts, os', sig, ho, he, hes, hsig, rfl, rfl⟩ := h
  obtain ⟨N, hN⟩ := hes.total
  refine ⟨N + 1, fun n hn mapped hm log => ?_⟩
  have htree : (importTree idOf repo n entries).run log =
      (.ok (idOf (.tree (Tree.new ts))), log ++ os' ++ [.tree (Tree.new ts)]) := by
    obtain ⟨k, rfl⟩ : ∃ k, n = k + 1 := ⟨n - 1, by omega⟩
    exact run_bind (hN k (by omega) log)
  refine (run_bind (mapM_orFail_total hlen hm log)).trans ((run_orFail ho _ _).trans
    ((run_orFail he _ _).trans ((run_bind htree).trans ((run_orFail hsig _ _).trans ?_))))
  have hassoc : log ++ (os' ++ [Object.tree (Tree.new ts),
      .snapshot (c.snapshot sig (idOf (.tree (Tree.new ts))) ids)]) =
      log ++ os' ++ [.tree (Tree.new ts)] ++
        [.snapshot (c.snapshot sig (idOf (.tree (Tree.new ts))) ids)] := by simp
  rw [hassoc]
  rfl

theorem Imports.resolves {oid : GitId} {id : ObjectId} (h : Imports idOf repo oid id) :
    ∃ N, ∀ n, N ≤ n → Resolves idOf repo toHex n [(oid, false)] [oid] := by
  induction h with
  | @commit oid c ids sn os hc hlen hp hb ih =>
    obtain ⟨N, hN⟩ := exists_bound (P := fun q n => Resolves idOf repo toHex n [(q.1, false)] [q.1])
      (c.parents.zip ids) ih
    obtain ⟨M, hM⟩ := hb.total hlen
    refine ⟨max N M, fun n hn stack w log hw => ?_⟩
    by_cases hm : (w.mapped oid).isSome
    · refine ⟨1, w, log, fun fuel => ?_, by simpa using hm, fun p hp => hp, hw⟩
      change (importLoop idOf repo toHex n (fuel + 1) ((oid, false) :: stack) w).run log = _
      rw [importLoop, if_pos hm]
    · have hzip : ∀ p ∈ c.parents, ∃ id', (p, id') ∈ c.parents.zip ids := by
        intro p hpm
        obtain ⟨i, hi, rfl⟩ := List.getElem_of_mem hpm
        have hz : i < (c.parents.zip ids).length := by
          rw [List.length_zip]
          omega
        have hget := List.getElem_mem hz
        rw [List.getElem_zip] at hget
        exact ⟨_, hget⟩
      let waiting := (c.parents.filter (fun p => (w.mapped p).isNone)).reverse
      have hwaiting : ∀ p ∈ waiting, Resolves idOf repo toHex n [(p, false)] [p] := by
        intro p hpm
        obtain ⟨id', hq⟩ := hzip p (List.mem_of_mem_filter (List.mem_reverse.mp hpm))
        exact hN n (by omega) _ hq
      obtain ⟨m, w₁, log₁, hrun, hin, hmono, hw₁⟩ := resolves_list hwaiting ((oid, true) :: stack) w
        log hw
      have hstack : pushParents w.mapped oid c stack =
          waiting.map (fun p => (p, false)) ++ (oid, true) :: stack := by
        rw [pushParents, List.map_reverse]
      have hpushed : ∀ fuel, (importLoop idOf repo toHex n (fuel + m + 1) ((oid, false) :: stack)
          w).run log = (importLoop idOf repo toHex n fuel ((oid, true) :: stack) w₁).run log₁ := by
        intro fuel
        rw [importLoop_waiting hm hc, hstack]
        exact hrun fuel
      have hfuel : ∀ fuel, fuel + (m + 2) = fuel + 1 + m + 1 := by omega
      by_cases hm₁ : (w₁.mapped oid).isSome
      · refine ⟨m + 2, w₁, log₁, fun fuel => ?_, by simpa using hm₁, hmono, hw₁⟩
        rw [hfuel, ← importLoop_mapped hm₁ fuel true]
        exact hpushed (fuel + 1)
      · have hmapped : ∀ q ∈ c.parents.zip ids, w₁.mapped q.1 = some q.2 := by
          intro q hq
          have hsome : (w₁.mapped q.1).isSome := by
            by_cases hold : (w.mapped q.1).isSome
            · exact hmono _ hold
            · refine hin _ (List.mem_reverse.mpr (List.mem_filter.mpr ⟨(List.of_mem_zip hq).1, ?_⟩))
              rw [Option.isSome_iff_ne_none, not_not] at hold
              rw [hold]
              rfl
          obtain ⟨id', hid'⟩ := Option.isSome_iff_exists.mp hsome
          rw [hid', (hw₁ _ _ hid').unique (hp q hq)]
        have hbuild := hM n (by omega) w₁.mapped hmapped log₁
        refine ⟨m + 2, w₁.record toHex oid (idOf (.snapshot sn)), log₁ ++ os, fun fuel => ?_, ?_, ?_,
          ?_⟩
        · rw [hfuel, ← importLoop_ready hm₁ hc hbuild]
          exact hpushed (fuel + 1)
        · intro o ho
          rw [List.mem_singleton.mp ho, record_self]
          rfl
        · intro p hpm
          by_cases hpo : p = oid
          · rw [hpo, record_self]
            rfl
          · rw [record_of_ne _ _ hpo]
            exact hmono p hpm
        · intro p id' hpid
          by_cases hpo : p = oid
          · subst hpo
            rw [record_self] at hpid
            cases hpid
            exact .commit hc hlen hp hb
          · rw [record_of_ne _ _ hpo] at hpid
            exact hw₁ p id' hpid

/-- An import of an importable branch with no marks returns the id its history gives. -/
theorem importHistory_total {hex : HexText} {branch : String} {tip : GitId} {id : ObjectId}
    (s : Store) (hb : repo.branches branch = some tip) (h : Imports idOf repo tip id) :
    ∃ treeFuel fuel report log, (importHistory idOf repo hex fuel treeFuel s branch []).run [] =
      (.ok report, log) ∧ report.tip = id := by
  have hresolves : ∃ N, ∀ n, N ≤ n → Resolves idOf repo hex.toHex n [(tip, false)] [tip] :=
    h.resolves
  obtain ⟨N, hN⟩ := hresolves
  have hstart : Right idOf repo ⟨seed hex.fromHex s [], []⟩ := fun oid id h => by cases h
  obtain ⟨m, w, log, hrun, hin, -, hw⟩ := hN N le_rfl [] ⟨seed hex.fromHex s [], []⟩ [] hstart
  obtain ⟨id', hid'⟩ := Option.isSome_iff_exists.mp (hin tip (by simp))
  refine ⟨N, 1 + m, ⟨id', w.newMarks⟩, log, ?_, (hw tip id' hid').unique h⟩
  have hloop : (importLoop idOf repo hex.toHex N (1 + m) [(tip, false)]
      ⟨seed hex.fromHex s [], []⟩).run [] = (.ok w, log) := hrun 1
  exact (run_orFail hb _ _).trans ((run_bind hloop).trans ((run_orFail hid' _ _).trans rfl))

end Walk

end Gitio

end SrcControl
