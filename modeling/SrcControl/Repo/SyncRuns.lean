import SrcControl.Repo.SyncClosed

/-!
# Runs of synchronization

Each operation of a command keeps the world sound and establishes the command's next
claim; the outline then gives the closure of every ref along every interleaving.
-/

namespace SrcControl

namespace Sync

open Reachable Transport Interleaving

variable {ι : Type}

section Facts

variable {u : Store} {fuel : Nat} {hist : List (Move (World ι))} {w w' : World ι}
  {pid : Nat}

theorem sameRefs_refl (w : World ι) : SameRefs w w := fun _ => rfl

/-- What one operation has to establish. -/
def Keeps (u : Store) (hist : List (Move (World ι))) (pid : Nat) (w w' : World ι)
    (q : (Command ι × Phase) ⊕ Result ι) : Prop :=
  Sound u w' ∧ Grows w w' ∧ claim u (hist ++ [⟨pid, w, w'⟩]) w' pid q

/-- An operation that only reads. -/
theorem keeps_read {cmd : Command ι} {ph : Phase} (hs : Sound u w)
    (hq : isPush cmd → Quiet hist pid)
    (hph : phaseClaim u (hist ++ [⟨pid, w, w⟩]) w pid cmd ph) :
    Keeps u hist pid w w (.inl (cmd, ph)) :=
  ⟨hs, Grows.refl w, hph, fun hp => (hq hp).own (sameRefs_refl w)⟩

theorem listedAt_now {cmd : Command ι} {r : Repository} (hc : ¬ isPush cmd)
    (hr : w cmd.source = some r) : ListedAt (hist ++ [⟨pid, w, w'⟩]) pid cmd r.refs.listRefs :=
  ⟨hc, ⟨pid, w, w'⟩, by simp, rfl, r, hr, rfl⟩

theorem claim_failed {cmd : Command ι} (e : Error) (hq : isPush cmd → Quiet hist pid) :
    resultClaim u (hist ++ [⟨pid, w, w⟩]) w pid (cmd.failed e) := by
  cases cmd with
  | fetch dst src remote nt => trivial
  | clone dst src nt => trivial
  | push src dst nt => exact (hq trivial).own (sameRefs_refl w)

/-- A pull keeps the promise of its landing. -/
theorem arriving_pull {cmd : Command ι} {r : Repository} {refs : RefList} {haves : List ObjectId}
    {pack : List Record} {skip : Bool} (hs : Sound u w) (hr : w cmd.source = some r)
    (hsrc : StoredAt u w cmd.source (refs.map (·.2))) (hhave : StoredAt u w cmd.receiver haves)
    (hpack : buildPack fuel r (refs.map (·.2)) haves = .ok pack) :
    Arriving u w cmd.receiver (refs.map (·.2)) (pack.filter (keepsRecord (droppedIds skip pack))) ∧
    InUniverse u (pack.filter (keepsRecord (droppedIds skip pack))) := by
  obtain ⟨d, hd, hheld⟩ := hhave
  have hin := hs.within _ r hr
  obtain ⟨hcontent, hcover⟩ := buildPack_spec hin (hsrc.at hr) (fun h hh => (hheld h hh).whole) hpack
  have huniv : InUniverse u pack := fun rec hrec => hin _ _ (hcontent rec hrec)
  refine ⟨⟨d, hd, fun t ht => ⟨(hsrc.at hr t ht).whole, fun x hx => ?_⟩⟩,
    fun rec hrec => huniv rec (List.mem_filter.mp hrec).1⟩
  rcases hcover t ht x hx with ⟨o, ho⟩ | ⟨h, hh, hhx⟩
  · exact .inr ⟨o, List.mem_filter.mpr ⟨ho, keepsRecord_closure (hsrc.at hr t ht).whole huniv ho hx⟩⟩
  · exact .inl ((hheld h hh).holds x hhx)

/-- A push keeps the promise of its landing. -/
theorem arriving_push {cmd : Command ι} {r : Repository} {tip : ObjectId} {send : List ObjectId}
    {pack : List Record} (hs : Sound u w) (hr : w cmd.source = some r)
    (hsrc : StoredAt u w cmd.source [tip]) {d : Repository} (hd : w cmd.receiver = some d)
    (hsel : ∀ x, u.Reach tip x → x ∈ ([] : List ObjectId) ∨ x ∈ send ∨
      ∃ o, d.store.objects[x]? = some o)
    (hpack : writeIdsToTempPack r.store send = .ok pack) :
    Arriving u w cmd.receiver [tip] pack ∧ InUniverse u pack := by
  have hin := hs.within _ r hr
  refine ⟨⟨d, hd, fun t ht => ?_⟩,
    fun rec hrec => hin _ _ ((Push.writeIdsToTempPack_mem hpack rec).mp hrec).2⟩
  obtain rfl := List.mem_singleton.mp ht
  refine ⟨(hsrc.at hr t ht).whole, fun x hx => ?_⟩
  rcases hsel x hx with hx | hx | hx
  · cases hx
  · exact .inr (Push.writeIdsToTempPack_complete hpack hx)
  · exact .inl hx

/-- The walk of a push offers the whole closure. -/
theorem reachable_all {i : ι} {r : Repository} {tip x : ObjectId} {reachable : BTreeSet ObjectId}
    (hs : Sound u w) (hr : w i = some r) (hsrc : StoredAt u w i [tip])
    (h : reachableObjects fuel r.store [tip] = .ok reachable) (hx : u.Reach tip x) :
    x ∈ reachable.toList := by
  have hin := hs.within i r hr
  have htip := hsrc.at hr tip (by simp)
  have hk : r.store.KindedOn (reachSet r.store [tip]) :=
    kindedOn_reachSet hin (fun t ht => (hsrc.at hr t ht).whole)
  exact Std.ExtTreeSet.mem_toList.mpr
    ((reachableObjects_spec h hk x).mpr ⟨tip, by simp, htip.reach hin hx⟩)

/-- An id that was asked for is to be sent or was there. -/
theorem selecting_ask {d : Repository} {id x : ObjectId} {todo send : List ObjectId}
    (h : x ∈ id :: todo ∨ x ∈ send ∨ ∃ o, d.store.objects[x]? = some o) :
    x ∈ todo ∨ x ∈ (if d.store.contains id then send else send ++ [id]) ∨
      ∃ o, d.store.objects[x]? = some o := by
  rcases h with hx | hx | hx
  · rcases List.mem_cons.mp hx with rfl | hx
    · cases hc : d.store.contains x with
      | true => exact .inr (.inr (Push.exists_of_contains hc))
      | false => exact .inr (.inl (by simp))
    · exact .inl hx
  · refine .inr (.inl ?_)
    split_ifs
    · exact hx
    · exact List.mem_append_left _ hx
  · exact .inr (.inr hx)

theorem refWrites_tip {cmd : Command ι} {refs : RefList} {wr : RefWrite}
    (h : wr ∈ cmd.refWrites refs) : wr.tip ∈ refs.map (·.2) := by
  cases cmd with
  | fetch dst src remote nt =>
    obtain ⟨e, he, rfl⟩ := List.mem_map.mp h
    exact List.mem_map.mpr ⟨e, he, rfl⟩
  | clone dst src nt =>
    obtain ⟨e, he, hw⟩ := List.mem_flatMap.mp h
    refine List.mem_map.mpr ⟨e, he, ?_⟩
    rcases List.mem_pair.mp hw with rfl | rfl <;> rfl
  | push src dst nt => cases h

theorem claim_begin {cmd : Command ι} (hs : ∀ m ∈ hist, m.pid ≠ pid) :
    claim u hist w pid (.inl (cmd, .begin)) :=
  ⟨trivial, fun _ m hm hpid => absurd hpid (hs m hm)⟩

end Facts

section Steps

variable [DecidableEq ι] {u : Store} {fuel : Nat} {idOf : Object → ObjectId}
  {hist : List (Move (World ι))} {w w' : World ι} {pid : Nat}

/-- Writing a ref to a tip that is stored keeps the world sound. -/
theorem sound_write {i : ι} {d : Repository} {refs' : Refs} {write : RefWrite} (hs : Sound u w)
    (hd : w i = some d) (htip : Stores u d.store write.tip) (h : write.apply d.refs = .ok refs') :
    Sound u (w.set i { d with refs := refs' }) := by
  refine sound_set hs (hs.within i d hd) (fun b t hb => ?_) (fun b t hb => ?_)
  · cases write with
    | head branch tip =>
      rw [Refs.writeBranchTip_eq_ok h] at hb
      simp only [BTreeMap.getElem?_insert] at hb
      split_ifs at hb
      · cases hb
        exact htip
      · exact hs.heads i d b t hd hb
    | remote remote branch tip =>
      rw [Refs.writeRemoteTip_eq_ok h] at hb
      exact hs.heads i d b t hd hb
  · cases write with
    | head branch tip =>
      rw [Refs.writeBranchTip_eq_ok h] at hb
      exact hs.remotes i d b t hd hb
    | remote remote branch tip =>
      rw [Refs.writeRemoteTip_eq_ok h] at hb
      simp only [BTreeMap.getElem?_insert] at hb
      split_ifs at hb
      · cases hb
        exact htip
      · exact hs.remotes i d b t hd hb

theorem sound_init {i : ι} (hs : Sound u w) : Sound u (w.set i initRepository) :=
  sound_set hs (by simp [initRepository, Extends]) (by simp [initRepository])
    (by simp [initRepository])

/-- The swap that ends a push moves the branch to a stored tip. -/
theorem sound_update {i : ι} {d d' : Repository} {branch : String} {tip : ObjectId}
    {old : Option ObjectId} (hs : Sound u w) (hd : w i = some d) (htip : Stores u d.store tip)
    (h : updateRef d branch tip old = .ok d') : Sound u (w.set i d') ∧ d'.store = d.store := by
  rcases updateRef_eq_ok h with ⟨rfl, _⟩ | ⟨_, rfl⟩
  · exact ⟨sound_set_store hs hd rfl (.refl _) (hs.within i _ hd), rfl⟩
  · refine ⟨sound_set hs (hs.within i d hd) (fun b t hb => ?_) (fun b t hb => ?_), rfl⟩
    · simp only [BTreeMap.getElem?_insert] at hb
      split_ifs at hb
      · cases hb
        exact htip
      · exact hs.heads i d b t hd hb
    · exact hs.remotes i d b t hd hb

theorem sound_writeHead {i : ι} {d : Repository} {branch : String} {refs' : Refs} (hs : Sound u w)
    (hd : w i = some d) (h : d.refs.writeHead branch = .ok refs') :
    Sound u (w.set i { d with refs := refs' }) := by
  obtain ⟨_, _, h⟩ := Fallible.bind_ok h
  cases h
  exact sound_set hs (hs.within i d hd) (fun b t hb => hs.heads i d b t hd hb)
    (fun b t hb => hs.remotes i d b t hd hb)

/-- Every operation keeps the world sound and establishes the next claim. -/
theorem step_keeps {p : Command ι × Phase} {q : (Command ι × Phase) ⊕ Result ι}
    (h : Step fuel idOf w p w' q) (hs : Sound u w) (hc : claim u hist w pid (.inl p)) :
    Keeps u hist pid w w' q := by
  cases h with
  | fail e => exact ⟨hs, Grows.refl w, claim_failed e hc.2⟩
  | fetchList hd hp hr => exact keeps_read hs hc.2 ⟨listedAt_now (fun h => h) hr, hs.listed hr⟩
  | fetchHaves hd => exact keeps_read hs hc.2 ⟨hc.1.1.mono, hc.1.2, hs.haves hd⟩
  | cloneList hr => exact keeps_read hs hc.2 ⟨listedAt_now (fun h => h) hr, hs.listed hr⟩
  | cloneInit hd =>
    have hg : Grows w (w.set _ initRepository) := grows_set_new hd
    exact ⟨sound_init hs, hg, ⟨hc.1.1.mono, hc.1.2.mono hg, _, set_self, by simp⟩, fun h => h.elim⟩
  | pull hr hpack hverify =>
    obtain ⟨harr, huniv⟩ := arriving_pull hs hr hc.1.2.1 hc.1.2.2 hpack
    refine keeps_read hs hc.2 ⟨?_, harr, huniv⟩
    rintro refs head ⟨⟩
    exact hc.1.1.mono
  | @land cmd d goal rec recs store hd hland =>
    have hgrow := (landRecord_landed hland).grows
    have hin := land_within (hs.within _ _ hd) (hc.1.2.2 rec (by simp)) hland
    refine ⟨sound_set_store hs hd rfl hgrow hin, grows_set hd hgrow, ⟨?_, ?_, ?_⟩, fun hp => ?_⟩
    · exact fun refs head hgoal => (hc.1.1 refs head hgoal).mono
    · exact arriving_land hc.1.2.1 hd hland
    · exact fun rec' hrec => hc.1.2.2 rec' (by simp [hrec])
    · exact (hc.2 hp).own (sameRefs_set hd rfl)
  | @reindex cmd d goal ix hd =>
    have hg : Grows w (w.set cmd.receiver { d with indexes := ix }) := grows_set hd (.refl _)
    have hin : Extends d.store u := hs.within _ d hd
    exact ⟨sound_set_store hs hd rfl (.refl _) hin, hg, phaseClaim_mono hc.1 hg,
      fun hp => (hc.2 hp).own (sameRefs_set hd rfl)⟩
  | landed =>
    exact keeps_read hs hc.2
      ⟨(hc.1.1 _ _ rfl).mono, hc.1.2.1.storedAt, fun wr hwr => refWrites_tip hwr⟩
  | @record cmd d refs head write writes refs' hd hw =>
    have hg : Grows w (w.set cmd.receiver { d with refs := refs' }) := grows_set hd (.refl _)
    have htip := hc.1.2.1.at hd _ (hc.1.2.2 write (by simp))
    exact ⟨sound_write hs hd htip hw, hg,
      ⟨hc.1.1.mono, hc.1.2.1.mono hg, fun wr hwr => hc.1.2.2 wr (by simp [hwr])⟩,
      fun hp => absurd hp hc.1.1.1⟩
  | fetchDone => exact ⟨hs, Grows.refl w, hc.1.1.mono, hc.1.2.1⟩
  | @cloneDone dst src nt d refs headBranch refs' hd hw =>
    have hg : Grows w (w.set dst { d with refs := refs' }) := grows_set hd (.refl _)
    exact ⟨sound_writeHead hs hd hw, hg, hc.1.1.mono, hc.1.2.1.mono hg⟩
  | pushTip hr hp ht =>
    refine keeps_read hs hc.2 ⟨_, hr, fun t htip => ?_⟩
    obtain rfl := List.mem_singleton.mp htip
    exact hs.heads _ _ _ _ hr (Refs.readBranchTip_eq_ok ht)
  | pushUpToDate hd hlist =>
    refine ⟨hs, Grows.refl w, _, hd, fun t htip => ?_⟩
    obtain rfl := List.mem_singleton.mp htip
    exact hs.heads _ _ _ _ hd (Push.listedTip_eq_some hlist)
  | pushCheck hr hd hne hff => exact keeps_read hs hc.2 ⟨hc.1, _, hd⟩
  | pushSelect hr hreach =>
    obtain ⟨hsrc, d, hd⟩ := hc.1
    refine keeps_read hs hc.2 ⟨hsrc, d, hd, fun x hx => .inl ?_⟩
    exact List.mem_append_left _ (List.mem_append_left _ (reachable_all hs hr hsrc hreach hx))
  | pushAsk hd =>
    obtain ⟨hsrc, d', hd', hsel⟩ := hc.1
    cases hd.symm.trans hd'
    exact keeps_read hs hc.2 ⟨hsrc, _, hd, fun x hx => selecting_ask (hsel x hx)⟩
  | @pushPack src dst nt r branch tip old send pack hr hpack hverify =>
    obtain ⟨hsrc, d, hd, hsel⟩ := hc.1
    obtain ⟨harr, huniv⟩ := @arriving_push _ _ _ (.push src dst nt) _ _ _ _ hs hr hsrc _ hd hsel hpack
    exact keeps_read hs hc.2 ⟨by simp, harr, huniv⟩
  | @pushUpdate src dst nt d d' branch tip old hd hup =>
    have hst : StoredAt u w dst [tip] := hc.1.2.1.storedAt
    obtain ⟨hsound, hstore⟩ := sound_update hs hd (hst.at hd tip (by simp)) hup
    have hg : Grows w (w.set dst d') := grows_set hd (by rw [hstore]; exact .refl _)
    exact ⟨hsound, hg, hst.mono hg⟩

def outline (u : Store) (fuel : Nat) (idOf : Object → ObjectId) :
    Outline (@commands ι _ fuel idOf) where
  inv := Sound u
  rely := Grows
  claim := claim u
  stable hg hm hc := claim_stable hg hm hc
  start := by
    rintro hist w pid ⟨cmd, ph⟩ _ rfl hfree
    exact claim_begin hfree
  step hs hc hstep := step_keeps hstep hs hc

end Steps

/-- Each ref of each repository has its full closure in its own store. -/
def Closed {ι : Type} (w : World ι) : Prop :=
  ∀ (i : ι) (r : Repository), w i = some r →
    (∀ (b : String) (t : ObjectId), r.refs.heads[b]? = some t → r.store.Whole t) ∧
    ∀ (b : String) (t : ObjectId), r.refs.remotes[b]? = some t → r.store.Whole t

theorem sound_iff_closed {u : Store} {w : World ι}
    (hin : ∀ i r, w i = some r → Extends r.store u) : Sound u w ↔ Closed w := by
  constructor
  · intro h i r hr
    exact ⟨fun b t hb => (whole_iff (hin i r hr)).mpr (h.heads i r b t hr hb),
      fun b t hb => (whole_iff (hin i r hr)).mpr (h.remotes i r b t hr hb)⟩
  · intro h
    exact ⟨hin, fun i r b t hr hb => (whole_iff (hin i r hr)).mp ((h i r hr).1 b t hb),
      fun i r b t hr hb => (whole_iff (hin i r hr)).mp ((h i r hr).2 b t hb)⟩

theorem StoredAt.whole {u : Store} {w : World ι} {i : ι} {tips : List ObjectId} (hs : Sound u w)
    (h : StoredAt u w i tips) : ∃ d, w i = some d ∧ ∀ t ∈ tips, d.store.Whole t := by
  obtain ⟨d, hd, ht⟩ := h
  exact ⟨d, hd, fun t hmem => (whole_iff (hs.within i d hd)).mpr (ht t hmem)⟩

/-- From any repositories closed under their refs, along every interleaving of fetches,
clones and pushes, cut or failing anywhere: every ref keeps its full closure, a pull that
succeeded left every tip it listed readable in full, a push that succeeded left its tip
readable in full at the remote, and a push that failed moved no ref. -/
theorem sync_keeps_closed [DecidableEq ι] (fuel : Nat) (idOf : Object → ObjectId) (u : Store)
    (w₀ : World ι) (huniverse : ∀ i r, w₀ i = some r → Extends r.store u)
    (hclosed : Closed w₀) {c : Config (World ι) (Command ι × Phase) (Result ι)}
    (hrun : (commands fuel idOf).Run (.initial w₀) c) :
    Closed c.shared ∧
    (∀ pid cmd refs, c.procs pid = some (.inr (.pulled cmd (.ok refs))) →
      (∃ m ∈ c.hist, m.pid = pid ∧
        ∃ r, m.before cmd.source = some r ∧ refs = r.refs.listRefs) ∧
      ∃ d, c.shared cmd.receiver = some d ∧ ∀ t ∈ refs.map (·.2), d.store.Whole t) ∧
    (∀ pid src dst tip, c.procs pid = some (.inr (.pushed src dst (.ok tip))) →
      ∃ d, c.shared dst = some d ∧ d.store.Whole tip) ∧
    ∀ pid src dst e, c.procs pid = some (.inr (.pushed src dst (.error e))) →
      ∀ m ∈ c.hist, m.pid = pid → SameRefs m.before m.after := by
  have hholds := (outline u fuel idOf).holds_run
    ((sound_iff_closed huniverse).mpr hclosed) hrun
  have hsound : Sound u c.shared := hholds.inv
  refine ⟨(sound_iff_closed hsound.within).mp hsound, fun pid cmd refs hp => ?_,
    fun pid src dst tip hp => ?_, fun pid src dst e hp => hholds.claims pid _ hp⟩
  · have hclaim := hholds.claims pid _ hp
    exact ⟨hclaim.1.2, hclaim.2.whole hsound⟩
  · obtain ⟨d, hd, ht⟩ := StoredAt.whole hsound (hholds.claims pid _ hp)
    exact ⟨d, hd, ht tip (by simp)⟩

def testOrigin : Repository :=
  ⟨testStore [(1, .tree Push.emptyTree), (2, .snapshot (Push.testSnapshot 1 []))],
    ⟨(∅ : BTreeMap String ObjectId).insert "main" (testId 2), ∅, "main"⟩, Push.running,
    Push.noIndexes, false⟩

/-- An origin with one commit, and an empty repository. -/
def testPair : World Bool
  | true => some testOrigin
  | false => some initRepository

def testPack : List Record :=
  [(testId 1, .tree Push.emptyTree), (testId 2, .snapshot (Push.testSnapshot 1 []))]

def testCommand : Command Bool := .fetch false true "origin" false

/-- A fetch alone lists the tip, lands its two objects and records the tracking ref. -/
theorem testFetch : ∃ w, (commands 9 Push.testAddress).Path testPair (testCommand, .begin) w
    (.inr (.pulled testCommand (.ok [("main", testId 2)]))) := by
  have hlist : (commands 9 Push.testAddress).Path testPair (testCommand, .begin) testPair
      (.inl (testCommand, .listed [("main", testId 2)] none)) :=
    .tail (.refl _ _) (.fetchList (d := initRepository) (r := testOrigin) rfl rfl rfl)
  have hhaves : (commands 9 Push.testAddress).Path testPair (testCommand, .begin) testPair
      (.inl (testCommand, .asked [("main", testId 2)] none [])) :=
    .tail hlist (.fetchHaves (d := initRepository) rfl)
  have hpack : buildPack 9 testOrigin [testId 2] [] = .ok testPack := rfl
  have hkeep : testPack.filter (keepsRecord (droppedIds false testPack)) = testPack := rfl
  have hstep : Step 9 Push.testAddress testPair (testCommand, .asked [("main", testId 2)] none [])
      testPair (.inl (testCommand, .landing (.refs [("main", testId 2)] none)
        (testPack.filter (keepsRecord (droppedIds false testPack))))) :=
    .pull (r := testOrigin) rfl hpack rfl
  rw [hkeep] at hstep
  have hpull := hhaves.tail hstep
  have hland := (hpull.tail (.land (d := initRepository) rfl rfl)).tail (.land rfl rfl)
  exact ⟨_, ((hland.tail .landed).tail (.record rfl rfl)).tail .fetchDone⟩

theorem testPair_within (i : Bool) (r : Repository) (h : testPair i = some r) :
    Extends r.store testOrigin.store := by
  cases i with
  | true =>
    cases h
    exact .refl _
  | false =>
    cases h
    simp [initRepository, Extends]

theorem testPair_closed : Closed testPair := by
  intro i r hr
  cases i with
  | true =>
    cases hr
    refine ⟨fun b t hb => ?_, fun b t hb => by simp [testOrigin] at hb⟩
    have hrefs : ∀ e ∈ testOrigin.refs.heads.toList, e.2 = testId 2 := by decide
    obtain rfl : t = testId 2 := hrefs (b, t) ((BTreeMap.mem_toList_iff _ _ _).mpr hb)
    refine ⟨fun o ho => ?_, fun x hx => ?_, fun a _ o ho r b hl o' ho' => ?_⟩
    · cases ho
      rfl
    · have hin := Push.reach_within (R := [testId 1, testId 2]) (by decide) (by decide) hx
      exact Push.exists_of_contains
        ((by decide : ∀ x ∈ [testId 1, testId 2], testOrigin.store.contains x = true) x hin)
    · have hfit : ∀ e ∈ testOrigin.store.objects.toList, ∀ l ∈ e.2.links,
          ∀ e' ∈ testOrigin.store.objects.toList, e'.1 = l.2 → l.1.fits e'.2 = true := by decide
      exact hfit (a, o) ((BTreeMap.mem_toList_iff _ _ _).mpr ho) (r, b) hl (b, o')
        ((BTreeMap.mem_toList_iff _ _ _).mpr ho') rfl
  | false =>
    cases hr
    exact ⟨fun b t hb => by simp [initRepository] at hb, fun b t hb => by simp [initRepository] at hb⟩

theorem sync_keeps_closed_fetch : ∃ w : World Bool, Closed w ∧
    ∃ d, w false = some d ∧ d.store.Whole (testId 2) := by
  obtain ⟨w, hpath⟩ := testFetch
  let c₀ : Config (World Bool) (Command Bool × Phase) (Result Bool) :=
    ⟨testPair, Function.update (fun _ => none) 0 (some (.inl (testCommand, .begin))), []⟩
  have hstart : c₀.procs 0 = some (.inl (testCommand, .begin)) := by simp [c₀]
  obtain ⟨c, hrun, -, hp⟩ := hpath.run rfl hstart
  have hbegin : (commands 9 Push.testAddress).Step (.initial testPair) c₀ :=
    .start (p := (testCommand, Phase.begin)) rfl rfl
  have hall := sync_keeps_closed 9 Push.testAddress testOrigin.store testPair testPair_within
    testPair_closed (.head hbegin hrun)
  obtain ⟨_, d, hd, hw⟩ := hall.2.1 0 _ _ hp
  exact ⟨c.shared, hall.1, d, hd, hw (testId 2) (by simp)⟩

end Sync

end SrcControl
