import SrcControl.Gitio.ImportEnds
import SrcControl.Lib.LineText
import SrcControl.Repo.Push

/-!
# The holes an import leaves

A mark is trusted once its own snapshot is stored, and the walk stops there. The closure of
the tip is whole exactly when everything below the marks it stops at is still stored, or is
put again for another commit.
-/

namespace SrcControl

namespace Gitio

open Transport

variable {idOf : Object → ObjectId} {repo : GitRepo}

/-! ## The objects of a history -/

/-- What is put for a tree names only what is put before it. -/
theorem EntriesImport.closed {es : List (Option GitEntry)} {ts : List TreeEntry}
    {os : List Object} (h : EntriesImport idOf repo es ts os) :
    (∀ t ∈ ts, ∃ o ∈ os, t.id = idOf o) ∧ ∀ o ∈ os, ∀ l ∈ o.links, ∃ o' ∈ os, l.2 = idOf o' := by
  induction h with
  | nil => exact ⟨by simp, by simp⟩
  | @tree e es sub obj ts ts' os os' hk ho hsub h hrest ih ihrest =>
    refine ⟨fun t ht => ?_, fun o ho l hl => ?_⟩
    · rcases List.mem_cons.mp ht with rfl | ht
      · exact ⟨.tree (Tree.new ts), by simp, rfl⟩
      · obtain ⟨o, ho, hid⟩ := ihrest.1 t ht
        exact ⟨o, by simp [ho], hid⟩
    · rcases List.mem_append.mp ho with ho | ho
      · obtain ⟨o', ho', hid⟩ := ih.2 o ho l hl
        exact ⟨o', by simp [ho'], hid⟩
      · rcases List.mem_cons.mp ho with rfl | ho
        · obtain ⟨t, ht, rfl⟩ := List.mem_map.mp hl
          obtain ⟨o', ho', hid⟩ := ih.1 t (Tree.mem_new.mp ht)
          exact ⟨o', by simp [ho'], hid⟩
        · obtain ⟨o', ho', hid⟩ := ihrest.2 o ho l hl
          exact ⟨o', by simp [ho'], hid⟩
  | submodule hk h ih => exact ih
  | @blob e es obj ts os ht hc ho h ih =>
    refine ⟨fun t ht => ?_, fun o ho l hl => ?_⟩
    · rcases List.mem_cons.mp ht with rfl | ht
      · exact ⟨.blob obj.data, by simp, rfl⟩
      · obtain ⟨o, ho, hid⟩ := ih.1 t ht
        exact ⟨o, by simp [ho], hid⟩
    · rcases List.mem_cons.mp ho with rfl | ho
      · cases hl
      · obtain ⟨o', ho', hid⟩ := ih.2 o ho l hl
        exact ⟨o', by simp [ho'], hid⟩

/-- The snapshot of a commit, with what stands behind its id. -/
theorem Imports.snapshot {oid : GitId} {id : ObjectId} (h : Imports idOf repo oid id) :
    ∃ c ids sn os, IsCommit repo oid c ∧ c.parents.length = ids.length ∧
      (∀ q ∈ c.parents.zip ids, Imports idOf repo q.1 q.2) ∧ Builds idOf repo c ids sn os ∧
      id = idOf (.snapshot sn) ∧ Owns idOf repo oid (.snapshot sn) := by
  cases h with
  | @commit oid c ids sn os hc hlen hp hb =>
    refine ⟨c, ids, sn, os, hc, hlen, hp, hb, rfl, c, ids, sn, os, hc, hlen, hp, hb, ?_⟩
    obtain ⟨obj, entries, ts, os', sig, -, -, -, -, -, rfl⟩ := hb
    simp

/-- A parent is imported under the id its child's snapshot names. -/
theorem parent_imports {oid p : GitId} {c : GitCommit} {ids : List ObjectId}
    (hc : IsCommit repo oid c) (hlen : c.parents.length = ids.length)
    (hp : ∀ q ∈ c.parents.zip ids, Imports idOf repo q.1 q.2) (h : ParentOf repo oid p) :
    ∃ id ∈ ids, Imports idOf repo p id := by
  obtain ⟨c', hc', hin⟩ := h
  obtain rfl := hc.unique hc'
  obtain ⟨i, hi, rfl⟩ := List.getElem_of_mem hin
  have hi' : i < ids.length := hlen ▸ hi
  have hz : i < (c.parents.zip ids).length := by
    rw [List.length_zip]
    omega
  have hpair := hp _ (List.getElem_mem hz)
  rw [List.getElem_zip] at hpair
  exact ⟨ids[i], List.getElem_mem hi', hpair⟩

theorem Imports.ancestor {oid a : GitId} {id : ObjectId} (h : Imports idOf repo oid id)
    (ha : Relation.ReflTransGen (ParentOf repo) oid a) : ∃ id', Imports idOf repo a id' := by
  induction ha with
  | refl => exact ⟨id, h⟩
  | tail _ hp ih =>
    obtain ⟨id', h'⟩ := ih
    obtain ⟨c, ids, sn, os, hc, hlen, hall, -⟩ := h'.snapshot
    obtain ⟨id'', -, himport⟩ := parent_imports hc hlen hall hp
    exact ⟨id'', himport⟩

theorem History.ancestor {oid a : GitId} {o : Object}
    (ha : Relation.ReflTransGen (ParentOf repo) oid a) (h : History idOf repo a o) :
    History idOf repo oid o := by
  obtain ⟨b, hb, ho⟩ := h
  exact ⟨b, ha.trans hb, ho⟩

/-- The objects of a history name only objects of it. -/
theorem History.closed {oid : GitId} {o : Object} (h : History idOf repo oid o) {r : Role}
    {x : ObjectId} (hl : (r, x) ∈ o.links) : ∃ o', History idOf repo oid o' ∧ x = idOf o' := by
  obtain ⟨a, ha, c, ids, sn, os, hc, hlen, hp, hb, ho⟩ := h
  have hown : ∀ o' ∈ os, History idOf repo oid o' :=
    fun o' ho' => ⟨a, ha, c, ids, sn, os, hc, hlen, hp, hb, ho'⟩
  obtain ⟨obj, entries, ts, os', sig, -, -, hes, -, rfl, rfl⟩ := hb
  obtain ⟨hts, hos⟩ := hes.closed
  rcases List.mem_append.mp ho with ho | ho
  · obtain ⟨o', ho', hid⟩ := hos o ho (r, x) hl
    exact ⟨o', hown o' (List.mem_append_left _ ho'), hid⟩
  · rcases List.mem_cons.mp ho with rfl | ho
    · obtain ⟨t, ht, he⟩ := List.mem_map.mp hl
      cases he
      obtain ⟨o', ho', hid⟩ := hts t (Tree.mem_new.mp ht)
      exact ⟨o', hown o' (List.mem_append_left _ ho'), hid⟩
    · rw [List.mem_singleton] at ho
      subst ho
      simp only [Object.links, GitCommit.snapshot, List.mem_append, List.mem_map,
        List.mem_singleton, Prod.mk.injEq] at hl
      rcases hl with (⟨id, hid, -, rfl⟩ | ⟨id, hid, -, -⟩) | ⟨-, rfl⟩
      · obtain ⟨i, hi, rfl⟩ := List.getElem_of_mem hid
        have hi' : i < c.parents.length := hlen ▸ hi
        have hz : i < (c.parents.zip ids).length := by
          rw [List.length_zip]
          omega
        have hpair := hp _ (List.getElem_mem hz)
        rw [List.getElem_zip] at hpair
        obtain ⟨_, _, sn', _, _, _, _, _, hid', hsn⟩ := hpair.snapshot
        exact ⟨.snapshot sn', ⟨c.parents[i], ha.tail ⟨c, hc, List.getElem_mem hi'⟩, hsn⟩, hid'⟩
      · have hnone : (∅ : BTreeMap String ObjectId).values = [] := rfl
        rw [hnone] at hid
        cases hid
      · exact ⟨.tree (Tree.new ts), hown _ (by simp), rfl⟩

/-- No object of the history shares its address with another, or with a stored one. -/
structure NoCollision (idOf : Object → ObjectId) (repo : GitRepo) (s : Store) (oid : GitId) :
    Prop where
  among : ∀ o, History idOf repo oid o → ∀ o', History idOf repo oid o' → idOf o = idOf o' → o = o'
  held : ∀ o, History idOf repo oid o → ∀ o', s.objects[idOf o]? = some o' → o' = o

/-- A property of ids that holds of the tip and spreads along links holds of the history. -/
theorem EntriesImport.spread {P : ObjectId → Prop} {es : List (Option GitEntry)}
    {ts : List TreeEntry} {os : List Object} (h : EntriesImport idOf repo es ts os)
    (hstep : ∀ o ∈ os, P (idOf o) → ∀ l ∈ o.links, P l.2) (hts : ∀ t ∈ ts, P t.id) :
    ∀ o ∈ os, P (idOf o) := by
  induction h with
  | nil => simp
  | @tree e es sub obj ts ts' os os' hk ho hsub h hrest ih ihrest =>
    have hself : P (idOf (.tree (Tree.new ts))) := hts _ (List.mem_cons_self ..)
    have hsub' : ∀ t ∈ ts, P t.id := by
      intro t ht
      exact hstep (.tree (Tree.new ts)) (by simp) hself (t.kind.role, t.id)
        (List.mem_map.mpr ⟨t, Tree.mem_new.mpr ht, rfl⟩)
    intro o ho
    rcases List.mem_append.mp ho with ho | ho
    · exact ih (fun o ho => hstep o (by simp [ho])) hsub' o ho
    · rcases List.mem_cons.mp ho with rfl | ho
      · exact hself
      · exact ihrest (fun o ho => hstep o (by simp [ho]))
          (fun t ht => hts t (List.mem_cons_of_mem _ ht)) o ho
  | submodule hk h ih => exact ih hstep hts
  | @blob e es obj ts os ht hc ho h ih =>
    intro o ho
    rcases List.mem_cons.mp ho with rfl | ho
    · exact hts _ (List.mem_cons_self ..)
    · exact ih (fun o ho => hstep o (by simp [ho]))
        (fun t ht => hts t (List.mem_cons_of_mem _ ht)) o ho

theorem History.spread {P : ObjectId → Prop} {tip : GitId} {id : ObjectId}
    (himport : Imports idOf repo tip id) (hid : P id)
    (hstep : ∀ o, History idOf repo tip o → P (idOf o) → ∀ l ∈ o.links, P l.2) {o : Object}
    (h : History idOf repo tip o) : P (idOf o) := by
  obtain ⟨a, ha, hown⟩ := h
  -- First the snapshots, down the ancestors; then the trees and blobs of one of them.
  have hsnap : ∀ id', Imports idOf repo a id' → P id' := by
    clear hown
    induction ha with
    | refl =>
      intro id' h'
      rwa [← himport.unique h']
    | @tail b c hab hbc ih =>
      intro id' h'
      obtain ⟨idb, hb⟩ := himport.ancestor hab
      obtain ⟨gc, ids, sn, os, hc, hlen, hp, hbuild, rfl, hownb⟩ := hb.snapshot
      obtain ⟨idc, hin, hic⟩ := parent_imports hc hlen hp hbc
      rw [← hic.unique h']
      refine hstep _ ⟨b, hab, hownb⟩ (ih _ hb) (.tip, idc) ?_
      obtain ⟨obj, entries, ts, os', sig, -, -, -, -, rfl, -⟩ := hbuild
      exact List.mem_append_left _ (List.mem_append_left _ (List.mem_map.mpr ⟨idc, hin, rfl⟩))
  obtain ⟨c, ids, sn, os, hc, hlen, hp, hb, ho⟩ := hown
  have hownall : ∀ o ∈ os, History idOf repo tip o :=
    fun o ho => ⟨a, ha, c, ids, sn, os, hc, hlen, hp, hb, ho⟩
  have hsn : P (idOf (.snapshot sn)) := hsnap _ (.commit hc hlen hp hb)
  obtain ⟨obj, entries, ts, os', sig, -, -, hes, -, rfl, rfl⟩ := hb
  have hroot : P (idOf (.tree (Tree.new ts))) :=
    hstep _ (hownall _ (by simp)) hsn (.tree, _) (List.mem_append_right _ (List.mem_singleton_self _))
  have hentries : ∀ t ∈ ts, P t.id := fun t ht =>
    hstep _ (hownall (.tree (Tree.new ts)) (by simp)) hroot (t.kind.role, t.id)
      (List.mem_map.mpr ⟨t, Tree.mem_new.mpr ht, rfl⟩)
  have htrees := hes.spread (fun o ho => hstep o (hownall o (List.mem_append_left _ ho))) hentries
  rcases List.mem_append.mp ho with ho | ho
  · exact htrees o ho
  · rcases List.mem_cons.mp ho with rfl | ho
    · exact hroot
    · rw [List.mem_singleton] at ho
      subst ho
      exact hsn

/-! ## The closure of the tip -/

section Closure

variable {s : Store} {tip : GitId} {id : ObjectId} {log : List Object}

/-- The closure of an imported tip is whole when every object of its history is stored. -/
theorem held_iff (himport : Imports idOf repo tip id) (hnc : NoCollision idOf repo s tip)
    (hlog : ∀ o ∈ log, History idOf repo tip o) :
    (s.putAll idOf log).Held id ↔
      ∀ o, History idOf repo tip o → ∃ o', (s.putAll idOf log).objects[idOf o]? = some o' := by
  have hright : ∀ o, History idOf repo tip o → ∀ o',
      (s.putAll idOf log).objects[idOf o]? = some o' → o' = o := by
    intro o ho o' ho'
    rcases Store.putAll_source ho' with hold | ⟨hin, hid⟩
    · exact hnc.held o ho o' hold
    · exact (hnc.among o ho o' (hlog o' hin) hid).symm
  constructor
  · intro hheld o ho
    refine hheld _ (History.spread himport .refl (fun o ho hr l hl => ?_) ho)
    obtain ⟨o', ho'⟩ := hheld _ hr
    obtain rfl := hright o ho o' ho'
    exact hr.tail ⟨o', ho', l.1, hl⟩
  · intro hall x hx
    have hin : ∃ o, History idOf repo tip o ∧ x = idOf o := by
      induction hx with
      | refl =>
        obtain ⟨_, _, sn, _, _, _, _, _, hid, hown⟩ := himport.snapshot
        exact ⟨.snapshot sn, ⟨tip, .refl, hown⟩, hid⟩
      | tail _ hl ih =>
        obtain ⟨o, ho, rfl⟩ := ih
        obtain ⟨o', ho', r, hl⟩ := hl
        obtain rfl := hright o ho o' ho'
        exact ho.closed hl
    obtain ⟨o, ho, rfl⟩ := hin
    exact hall o ho

/-- A trusted commit the walk comes across. -/
def Frontier (repo : GitRepo) (trusted : GitId → Prop) (tip oid : GitId) : Prop :=
  Met repo trusted tip oid ∧ trusted oid

/-- An ancestor is imported again, or lies below a mark the walk stops at. -/
theorem reimported_or_below (trusted : GitId → Prop) {a : GitId}
    (h : Relation.ReflTransGen (ParentOf repo) tip a) : Reimported repo trusted tip a ∨
      ∃ m, Frontier repo trusted tip m ∧ Relation.ReflTransGen (ParentOf repo) m a := by
  induction h with
  | refl =>
    by_cases ht : trusted tip
    · exact .inr ⟨tip, ⟨.inl rfl, ht⟩, .refl⟩
    · exact .inl (.tip ht)
  | @tail b c _ hp ih =>
    rcases ih with hre | ⟨m, hm, hr⟩
    · by_cases ht : trusted c
      · exact .inr ⟨c, ⟨.inr ⟨b, hre, hp⟩, ht⟩, .refl⟩
      · exact .inl (.parent hre hp ht)
    · exact .inr ⟨m, hm, hr.tail hp⟩

theorem Reimported.reached {trusted : GitId → Prop} {a : GitId}
    (h : Reimported repo trusted tip a) : Relation.ReflTransGen (ParentOf repo) tip a := by
  induction h with
  | tip _ => exact .refl
  | parent _ hp _ ih => exact ih.tail hp

theorem Frontier.below {trusted : GitId → Prop} {m : GitId} (h : Frontier repo trusted tip m) :
    Relation.ReflTransGen (ParentOf repo) tip m := by
  rcases h.1 with rfl | ⟨a, ha, hp⟩
  · exact .refl
  · exact ha.reached.tail hp

end Closure

/-- Below the marks the walk stops at nothing is missing but what it puts again. -/
def WholeBelowMarks (idOf : Object → ObjectId) (repo : GitRepo) (hex : HexText) (s : Store)
    (known : List (String × ObjectId)) (tip : GitId) : Prop :=
  ∀ m, Frontier repo (Trusted hex.fromHex s known) tip m → ∀ o, History idOf repo m o →
    s.contains (idOf o) = true ∨
      ∃ c, Reimported repo (Trusted hex.fromHex s known) tip c ∧ Owns idOf repo c o

/-- The closure of the imported tip is stored, and the tip is the one an import with no marks
into an empty store returns, exactly when nothing is missing below the marks the walk stops
at. -/
theorem import_whole_iff {hex : HexText} {fuel treeFuel : Nat} {s : Store} {branch : String}
    {known : List (String × ObjectId)} {tip : GitId} {report : ImportReport} {log : List Object}
    (hb : repo.branches branch = some tip) (hlearnt : Learnt idOf repo hex known)
    (hnc : NoCollision idOf repo s tip)
    (h : (importHistory idOf repo hex fuel treeFuel s branch known).run [] = (.ok report, log)) :
    ((s.putAll idOf log).Held report.tip ∧
      ∃ treeFuel fuel report' log', (importHistory idOf repo hex fuel treeFuel ⟨∅⟩ branch []).run [] =
        (.ok report', log') ∧ report'.tip = report.tip) ↔
      WholeBelowMarks idOf repo hex s known tip := by
  obtain ⟨tip', hb', himport, hlog⟩ := importHistory_ok hlearnt h
  obtain rfl : tip = tip' := Option.some.inj (hb.symm.trans hb')
  have hputs : ∀ o ∈ log, History idOf repo tip o := by
    intro o ho
    obtain ⟨c, hc, hown⟩ := (hlog o).mp ho
    exact ⟨c, hc.reached, hown⟩
  rw [held_iff himport hnc hputs, and_iff_left (importHistory_total ⟨∅⟩ hb himport)]
  constructor
  · intro hall m hm o ho
    have hin := ho.ancestor hm.below
    obtain ⟨o', ho'⟩ := hall o hin
    rcases Store.putAll_source ho' with hold | ⟨hput, hid⟩
    · exact .inl (Store.contains_of_get (Store.get_eq_ok_iff.mpr hold))
    · obtain rfl := hnc.among o hin o' (hputs o' hput) hid
      exact .inr ((hlog o).mp hput)
  · intro hwhole o ho
    have hput : ∀ c, Reimported repo (Trusted hex.fromHex s known) tip c → Owns idOf repo c o →
        ∃ o', (s.putAll idOf log).objects[idOf o]? = some o' :=
      fun c hc hown => Store.exists_of_mem_putAll ((hlog o).mpr ⟨c, hc, hown⟩)
    obtain ⟨a, ha, hown⟩ := ho
    rcases reimported_or_below (Trusted hex.fromHex s known) ha with hre | ⟨m, hm, hr⟩
    · exact hput a hre hown
    · rcases hwhole m hm o ⟨a, hr, hown⟩ with hold | ⟨c, hc, hown'⟩
      · rw [Store.contains, Std.ExtTreeMap.contains_eq_isSome_getElem?] at hold
        obtain ⟨o', ho'⟩ := Option.isSome_iff_exists.mp hold
        exact ⟨o', Store.putAll_extends idOf s log _ _ ho'⟩
      · exact hput c hc hown'

/-! ## Two commits, the older one pruned -/

theorem owns_iff {oid : GitId} {c : GitCommit} {ids : List ObjectId} {sn : Snapshot}
    {os : List Object} (hc : IsCommit repo oid c) (hlen : c.parents.length = ids.length)
    (hp : ∀ q ∈ c.parents.zip ids, Imports idOf repo q.1 q.2) (hb : Builds idOf repo c ids sn os)
    (o : Object) : Owns idOf repo oid o ↔ o ∈ os := by
  constructor
  · rintro ⟨c', ids', sn', os', hc', hlen', hp', hb', ho⟩
    obtain rfl := hc.unique hc'
    obtain rfl := eq_of_zip hlen hlen' hp hp' (fun p _ y z hy hz => hy.unique hz)
    obtain ⟨-, rfl⟩ := hb.unique hb'
    exact ho
  · exact fun ho => ⟨c, ids, sn, os, hc, hlen, hp, hb, ho⟩

def hexText : HexText where
  toHex oid := String.ofList (LineText.encodeHex oid.bytes)
  fromHex text := (LineText.decodeHex text.toList).map GitId.mk
  fromHex_toHex oid := by simp [LineText.decodeHex_encodeHex]

def gitId (n : UInt8) : GitId := ⟨List.replicate 20 n⟩

def gitCommit (parents : List GitId) : GitCommit :=
  ⟨parents, gitId 3, some ⟨"a", "", 0⟩, "m\n"⟩

/-- A branch of two commits over one empty tree. -/
def gitRepo : GitRepo where
  branches name := if name = "main" then some (gitId 2) else none
  objects oid :=
    if oid = gitId 1 then some ⟨[], .commit (some (gitCommit []))⟩
    else if oid = gitId 2 then some ⟨[], .commit (some (gitCommit [gitId 1]))⟩
    else if oid = gitId 3 then some ⟨[], .tree []⟩ else none

def gitMarks : List (String × ObjectId) :=
  [(hexText.toHex (gitId 1), testId 2), (hexText.toHex (gitId 2), testId 6)]

/-- After a gc that pruned the snapshot of the older commit. -/
def prunedStore : Store :=
  testStore [(1, .tree Push.emptyTree), (6, .snapshot (Push.testSnapshot 1 [2]))]

theorem gitCommit_builds (parents : List GitId) (ids : List UInt8) :
    Builds Push.testAddress gitRepo (gitCommit parents) (ids.map testId)
      (Push.testSnapshot 1 ids) [.tree Push.emptyTree, .snapshot (Push.testSnapshot 1 ids)] := by
  have hempty : Tree.new [] = Push.emptyTree := Tree.sorted_new_eq .nil
  refine ⟨⟨[], .tree []⟩, [], [], [], ⟨"a", "", 0⟩, rfl, rfl, .nil, rfl, ?_, ?_⟩
  · have hmessage : stripNewline "m\n" = "m" := by decide
    rw [hempty, GitCommit.snapshot, gitCommit, hmessage]
    rfl
  · rw [hempty]
    rfl

theorem isCommit_first : IsCommit gitRepo (gitId 1) (gitCommit []) := ⟨_, rfl, rfl⟩

theorem isCommit_second : IsCommit gitRepo (gitId 2) (gitCommit [gitId 1]) := ⟨_, rfl, rfl⟩

theorem imports_first : Imports Push.testAddress gitRepo (gitId 1) (testId 2) :=
  .commit  isCommit_first rfl (fun _ hq => by cases hq) (gitCommit_builds [] [])

theorem imports_parents : ∀ q ∈ [gitId 1].zip [testId 2],
    Imports Push.testAddress gitRepo q.1 q.2 := by
  intro q hq
  rw [List.mem_singleton.mp hq]
  exact imports_first

theorem imports_second : Imports Push.testAddress gitRepo (gitId 2) (testId 6) :=
  .commit  isCommit_second rfl imports_parents (gitCommit_builds [gitId 1] [2])

theorem gitMarks_learnt : Learnt Push.testAddress gitRepo hexText gitMarks := by
  intro mark hmark
  rcases List.mem_pair.mp hmark with rfl | rfl
  · exact ⟨gitId 1, rfl, imports_first⟩
  · exact ⟨gitId 2, rfl, imports_second⟩

theorem gitRepo_history {o : Object} (h : History Push.testAddress gitRepo (gitId 2) o) :
    o ∈ [.tree Push.emptyTree, .snapshot (Push.testSnapshot 1 []),
      .snapshot (Push.testSnapshot 1 [2])] := by
  obtain ⟨a, ha, hown⟩ := h
  rcases Relation.ReflTransGen.cases_head ha with rfl | ⟨b, ⟨c, hc, hb⟩, hr⟩
  · have hin := (owns_iff isCommit_second rfl imports_parents
      (gitCommit_builds [gitId 1] [2]) o).mp hown
    rcases List.mem_pair.mp hin with rfl | rfl <;> simp
  · obtain rfl := isCommit_second.unique hc
    obtain rfl := List.mem_singleton.mp hb
    rcases Relation.ReflTransGen.cases_head hr with rfl | ⟨b, ⟨c, hc, hb⟩, -⟩
    · have hin := (owns_iff  isCommit_first rfl (fun _ hq => by cases hq)
        (gitCommit_builds [] []) o).mp hown
      rcases List.mem_pair.mp hin with rfl | rfl <;> simp
    · obtain rfl := isCommit_first.unique hc
      cases hb

theorem prunedStore_noCollision :
    NoCollision Push.testAddress gitRepo prunedStore (gitId 2) where
  among o ho o' ho' hid := by
    have hall : ∀ a ∈ [Object.tree Push.emptyTree, .snapshot (Push.testSnapshot 1 []),
        .snapshot (Push.testSnapshot 1 [2])], ∀ b ∈ [Object.tree Push.emptyTree,
        .snapshot (Push.testSnapshot 1 []), .snapshot (Push.testSnapshot 1 [2])],
        Push.testAddress a = Push.testAddress b → a = b := by decide
    exact hall o (gitRepo_history ho) o' (gitRepo_history ho') hid
  held o ho o' ho' := by
    have hall : ∀ a ∈ [Object.tree Push.emptyTree, .snapshot (Push.testSnapshot 1 []),
        .snapshot (Push.testSnapshot 1 [2])], ∀ e ∈ prunedStore.objects.toList,
        e.1 = Push.testAddress a → e.2 = a := by decide
    exact hall o (gitRepo_history ho) (_, o') ((BTreeMap.mem_toList_iff _ _ _).mpr ho') rfl

/-- The import of the branch whose older commit was pruned, its marks still there. -/
def prunedImport : Except ImportError ImportReport × List Object :=
  (importHistory Push.testAddress gitRepo hexText 2 2 prunedStore "main" gitMarks).run []

/-- The mark of the newer commit is trusted, and its parent is missing from the store. -/
theorem mark_above_hole :
    Learnt Push.testAddress gitRepo hexText gitMarks ∧
      NoCollision Push.testAddress gitRepo prunedStore (gitId 2) ∧
      prunedImport = (.ok ⟨testId 6, []⟩, []) ∧
      ¬ (prunedStore.putAll Push.testAddress []).Held (testId 6) := by
  refine ⟨gitMarks_learnt, prunedStore_noCollision, rfl, fun hheld => ?_⟩
  have hparent : prunedStore.Link (testId 6) (testId 2) :=
    ⟨.snapshot (Push.testSnapshot 1 [2]), rfl, .tip, by decide⟩
  obtain ⟨o, ho⟩ := hheld (testId 2) (.single hparent)
  cases (rfl : prunedStore.objects[testId 2]? = none).symm.trans ho

theorem import_whole_iff_pruned :
    ((prunedStore.putAll Push.testAddress []).Held (testId 6) ∧
      ∃ treeFuel fuel report' log', (importHistory Push.testAddress gitRepo hexText fuel treeFuel
        ⟨∅⟩ "main" []).run [] = (.ok report', log') ∧ report'.tip = testId 6) ↔
      WholeBelowMarks Push.testAddress gitRepo hexText prunedStore gitMarks (gitId 2) :=
  @import_whole_iff Push.testAddress gitRepo hexText 2 2 prunedStore "main" gitMarks (gitId 2)
    ⟨testId 6, []⟩ [] rfl gitMarks_learnt prunedStore_noCollision rfl

end Gitio

end SrcControl
