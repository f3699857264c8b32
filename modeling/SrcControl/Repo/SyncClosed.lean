import SrcControl.Repo.Sync

/-!
# Synchronization keeps both ends closed

All stores are parts of one universe of objects, since an id names one object. In it
the closure of a tip is a fixed set, and a repository stores a tip when it holds all of
that set: a property that only growth of the store can touch.
-/

namespace SrcControl

namespace Sync

open Reachable Transport Interleaving

section Stores

variable {u s s' : Store} {tip : ObjectId}

/-- The closure of `tip` in the universe is well kinded, and all of it is in `s`. -/
structure Stores (u s : Store) (tip : ObjectId) : Prop where
  whole : u.Whole tip
  holds : ∀ x, u.Reach tip x → ∃ o, s.objects[x]? = some o

theorem Stores.mono (h : Stores u s tip) (hs : Extends s s') : Stores u s' tip :=
  ⟨h.whole, fun x hx => (h.holds x hx).imp (fun o ho => hs x o ho)⟩

theorem reach_universe (hs : Extends s u) {x y : ObjectId} (h : s.Reach x y) : u.Reach x y :=
  Push.reach_extends hs h

theorem agree_universe (hs : Extends s u) : u.Agree s := by
  intro id o o' ho ho'
  rw [hs id o' ho'] at ho
  exact (Option.some.inj ho).symm

theorem Stores.reach (h : Stores u s tip) (hs : Extends s u) {x : ObjectId} (hx : u.Reach tip x) :
    s.Reach tip x :=
  Push.reach_of_agree (agree_universe hs) hx (fun z hz => h.holds z hz)

theorem whole_iff (hs : Extends s u) : s.Whole tip ↔ Stores u s tip := by
  constructor
  · intro h
    have hreach : ∀ {x}, u.Reach tip x → s.Reach tip x := by
      intro x hx
      induction hx with
      | refl => exact .refl
      | @tail y z _ hl ih =>
        obtain ⟨o, ho, hr⟩ := hl
        obtain ⟨o', ho'⟩ := h.stored y ih
        rw [← agree_universe hs y o o' ho ho'] at ho'
        exact ih.tail ⟨o, ho', hr⟩
    have hheld : ∀ x, u.Reach tip x → ∃ o, s.objects[x]? = some o := fun x hx => h.stored x (hreach hx)
    have hsame : ∀ {x o}, u.Reach tip x → u.objects[x]? = some o → s.objects[x]? = some o := by
      intro x o hx ho
      obtain ⟨o', ho'⟩ := hheld x hx
      rw [agree_universe hs x o o' ho ho']
      exact ho'
    refine ⟨⟨fun o ho => h.isTip o (hsame .refl ho),
      fun x hx => (hheld x hx).imp (fun o ho => hs x o ho), ?_⟩, hheld⟩
    intro a ha o ho r b hl o' ho'
    have hb : u.Reach tip b := ha.tail ⟨o, ho, r, hl⟩
    exact h.kinded a (hreach ha) o (hsame ha ho) r b hl o' (hsame hb ho')
  · intro h
    refine ⟨fun o ho => h.whole.isTip o (hs tip o ho),
      fun x hx => h.holds x (reach_universe hs hx), ?_⟩
    intro a ha o ho r b hl o' ho'
    exact h.whole.kinded a (reach_universe hs ha) o (hs a o ho) r b hl o' (hs b o' ho')

theorem kindedOn_reachSet (hs : Extends s u) {tips : List ObjectId}
    (h : ∀ t ∈ tips, u.Whole t) : s.KindedOn (reachSet s tips) := by
  rintro a ⟨t, ht, ha⟩ o ho r b hl o' ho'
  exact (h t ht).kinded a (reach_universe hs ha) o (hs a o ho) r b hl o' (hs b o' ho')

/-- No closure holds a transcript or a signature. -/
theorem closure_kind (h : u.Whole tip) {x : ObjectId} (hx : u.Reach tip x) {o : Object}
    (ho : u.objects[x]? = some o) : ∃ r : Role, r.fits o = true := by
  rcases hx.cases_tail with rfl | ⟨y, hy, o', ho', r, hl⟩
  · exact ⟨.tip, h.isTip o ho⟩
  · exact ⟨r, h.kinded y hy o' ho' r x hl o ho⟩

end Stores

/-! ## The pack -/

section Pack

variable {u : Store} {fuel : Nat}

/-- What is subtracted is reachable from a have that the sender holds. -/
theorem haveSet_spec {s : Store} (hs : Extends s u) {haves : List ObjectId}
    (hw : ∀ h ∈ haves, u.Whole h) {set : BTreeSet ObjectId}
    (hok : haveSet fuel s haves = .ok set) {x : ObjectId} (hx : x ∈ set) :
    ∃ h ∈ haves, u.Reach h x := by
  have hloop : ∀ (hs' : List ObjectId), (∀ h ∈ hs', u.Whole h) → ∀ set₀ set₁ : BTreeSet ObjectId,
      hs'.foldlM (fun set h => if s.contains h then do
        pure (markAll (← reachableObjects fuel s [h]).toList set) else pure set) set₀ =
          Except.ok set₁ →
      x ∈ set₁ → x ∈ set₀ ∨ ∃ h ∈ hs', u.Reach h x := by
    intro hs'
    induction hs' with
    | nil =>
      intro _ set₀ set₁ hrun hx
      cases hrun
      exact .inl hx
    | cons h hs' ih =>
      intro hw set₀ set₁ hrun hx
      rw [List.foldlM_cons] at hrun
      obtain ⟨mid, hmid, hrun⟩ := Fallible.bind_ok hrun
      rcases ih (fun h' hh => hw h' (by simp [hh])) mid set₁ hrun hx with hx | ⟨h', hh, hr⟩
      · split_ifs at hmid with hc
        · obtain ⟨seen, hseen, hmid⟩ := Fallible.bind_ok hmid
          cases hmid
          rcases mem_markAll.mp hx with hx | hx
          · have hspec := reachableObjects_spec hseen
              (kindedOn_reachSet hs (by simpa using hw h (by simp))) x
            obtain ⟨t, ht, hr⟩ := hspec.mp (Std.ExtTreeSet.mem_toList.mp hx)
            rw [List.mem_singleton.mp ht] at hr
            exact .inr ⟨h, by simp, reach_universe hs hr⟩
          · exact .inl hx
        · cases hmid
          exact .inl hx
      · exact .inr ⟨h', by simp [hh], hr⟩
  rcases hloop haves hw ∅ set hok hx with hx | hx
  · simp at hx
  · exact hx

/-- The pack of a pull holds, with their content, everything the wants reach and the
haves do not. -/
theorem buildPack_spec {r : Repository} (hs : Extends r.store u) {wants haves : List ObjectId}
    (hwants : ∀ t ∈ wants, Stores u r.store t) (hhaves : ∀ h ∈ haves, u.Whole h)
    {pack : List Record} (h : buildPack fuel r wants haves = .ok pack) :
    (∀ rec ∈ pack, r.store.objects[rec.1]? = some rec.2) ∧
    ∀ t ∈ wants, ∀ x, u.Reach t x → (∃ o, (x, o) ∈ pack) ∨ ∃ h ∈ haves, u.Reach h x := by
  obtain ⟨held, hheld, h⟩ := Fallible.bind_ok h
  obtain ⟨want, hwant, h⟩ := Fallible.bind_ok h
  refine ⟨fun rec hrec => ((Push.writeIdsToTempPack_mem h rec).mp hrec).2, fun t ht x hx => ?_⟩
  have hin : x ∈ want := (reachableObjects_spec hwant
    (kindedOn_reachSet hs (fun t ht => (hwants t ht).whole)) x).mpr
      ⟨t, ht, (hwants t ht).reach hs hx⟩
  cases hc : held.contains x with
  | true => exact .inr (haveSet_spec hs hhaves hheld (Std.ExtTreeSet.contains_iff_mem.mp hc))
  | false =>
    refine .inl (Push.writeIdsToTempPack_complete h ?_)
    simp only [List.mem_filter, Std.ExtTreeSet.mem_toList, mem_markAll, hc, Bool.not_false,
      and_true]
    exact .inr (.inr hin)

/-- A receiver without transcripts still keeps every record of a closure. -/
theorem keepsRecord_closure {tip : ObjectId} (hw : u.Whole tip) {pack : List Record}
    (hpack : ∀ rec ∈ pack, u.objects[rec.1]? = some rec.2) {skip : Bool} {rec : Record}
    (hrec : rec ∈ pack) (hr : u.Reach tip rec.1) :
    keepsRecord (droppedIds skip pack) rec = true := by
  obtain ⟨id, o⟩ := rec
  have ho := hpack _ hrec
  obtain ⟨role, hfit⟩ := closure_kind hw hr ho
  have hdrop : id ∉ droppedIds skip pack := by
    unfold droppedIds
    split_ifs
    · intro hmem
      obtain ⟨rec', hrec', hid⟩ := List.mem_map.mp hmem
      obtain ⟨hrec', htr⟩ := List.mem_filter.mp hrec'
      have ho' := hpack rec' hrec'
      rw [hid, ho] at ho'
      rw [← Option.some.inj ho'] at htr
      cases o <;> cases role <;> simp_all [isTranscript, Role.fits]
    · simp
  have hsig : ∀ sig, o ≠ .signature sig := by
    rintro sig rfl
    cases role <;> simp [Role.fits] at hfit
  unfold keepsRecord
  cases o with
  | signature sig => exact absurd rfl (hsig sig)
  | _ => simpa using hdrop

end Pack

/-! ## The outline -/

variable {ι : Type}

/-- Every store is part of the universe and holds what its refs close over. -/
structure Sound (u : Store) (w : World ι) : Prop where
  within : ∀ i r, w i = some r → Extends r.store u
  heads : ∀ (i : ι) (r : Repository) (b : String) (t : ObjectId), w i = some r →
    r.refs.heads[b]? = some t → Stores u r.store t
  remotes : ∀ (i : ι) (r : Repository) (b : String) (t : ObjectId), w i = some r →
    r.refs.remotes[b]? = some t → Stores u r.store t

/-- Repositories stay, and their stores only grow. -/
def Grows (w w' : World ι) : Prop :=
  ∀ i r, w i = some r → ∃ r', w' i = some r' ∧ Extends r.store r'.store

def SameRefs (w w' : World ι) : Prop := ∀ i, (w i).map (·.refs) = (w' i).map (·.refs)

def isPush : Command ι → Prop
  | .push _ _ _ => True
  | _ => False

/-- The command is a pull that listed these refs at its source. -/
def ListedAt (hist : List (Move (World ι))) (pid : Nat) (cmd : Command ι) (refs : RefList) : Prop :=
  ¬ isPush cmd ∧ ∃ m ∈ hist, m.pid = pid ∧
    ∃ r, m.before cmd.source = some r ∧ refs = r.refs.listRefs

/-- The command has moved no ref so far. -/
def Quiet (hist : List (Move (World ι))) (pid : Nat) : Prop :=
  ∀ m ∈ hist, m.pid = pid → SameRefs m.before m.after

def StoredAt (u : Store) (w : World ι) (i : ι) (tips : List ObjectId) : Prop :=
  ∃ r, w i = some r ∧ ∀ t ∈ tips, Stores u r.store t

/-- Once `recs` have landed at `i`, it stores the tips. -/
def Arriving (u : Store) (w : World ι) (i : ι) (tips : List ObjectId) (recs : List Record) : Prop :=
  ∃ r, w i = some r ∧ ∀ t ∈ tips, u.Whole t ∧
    ∀ x, u.Reach t x → (∃ o, r.store.objects[x]? = some o) ∨ ∃ o, (x, o) ∈ recs

def InUniverse (u : Store) (recs : List Record) : Prop :=
  ∀ rec ∈ recs, u.objects[rec.1]? = some rec.2

/-- What a pull that listed `refs` can rely on in each phase. -/
def phaseClaim (u : Store) (hist : List (Move (World ι))) (w : World ι) (pid : Nat)
    (cmd : Command ι) : Phase → Prop
  | .begin => True
  | .listed refs _ => ListedAt hist pid cmd refs ∧ StoredAt u w cmd.source (refs.map (·.2))
  | .asked refs _ haves => ListedAt hist pid cmd refs ∧
      StoredAt u w cmd.source (refs.map (·.2)) ∧ StoredAt u w cmd.receiver haves
  | .tipRead _ tip => StoredAt u w cmd.source [tip]
  | .checked _ tip _ => StoredAt u w cmd.source [tip] ∧ ∃ d, w cmd.receiver = some d
  | .selecting _ tip _ todo send => StoredAt u w cmd.source [tip] ∧
      ∃ d, w cmd.receiver = some d ∧ ∀ x, u.Reach tip x →
        x ∈ todo ∨ x ∈ send ∨ ∃ o, d.store.objects[x]? = some o
  | .landing goal recs => (∀ refs head, goal = .refs refs head → ListedAt hist pid cmd refs) ∧
      Arriving u w cmd.receiver goal.tips recs ∧ InUniverse u recs
  | .recording refs _ writes => ListedAt hist pid cmd refs ∧
      StoredAt u w cmd.receiver (refs.map (·.2)) ∧ ∀ wr ∈ writes, wr.tip ∈ refs.map (·.2)

def resultClaim (u : Store) (hist : List (Move (World ι))) (w : World ι) (pid : Nat) :
    Result ι → Prop
  | .pulled cmd (.ok refs) =>
      ListedAt hist pid cmd refs ∧ StoredAt u w cmd.receiver (refs.map (·.2))
  | .pulled _ (.error _) => True
  | .pushed _ dst (.ok tip) => StoredAt u w dst [tip]
  | .pushed _ _ (.error _) => Quiet hist pid

def claim (u : Store) (hist : List (Move (World ι))) (w : World ι) (pid : Nat) :
    (Command ι × Phase) ⊕ Result ι → Prop
  | .inl (cmd, ph) => phaseClaim u hist w pid cmd ph ∧ (isPush cmd → Quiet hist pid)
  | .inr res => resultClaim u hist w pid res

section Worlds

variable {u : Store} {w w' : World ι} {i : ι} {d : Repository}

theorem Grows.refl (w : World ι) : Grows w w := fun _ r hr => ⟨r, hr, .refl _⟩

theorem StoredAt.mono {tips : List ObjectId} (h : StoredAt u w i tips) (hg : Grows w w') :
    StoredAt u w' i tips := by
  obtain ⟨r, hr, hs⟩ := h
  obtain ⟨r', hr', hgrow⟩ := hg i r hr
  exact ⟨r', hr', fun t ht => (hs t ht).mono hgrow⟩

theorem Arriving.mono {tips : List ObjectId} {recs : List Record} (h : Arriving u w i tips recs)
    (hg : Grows w w') : Arriving u w' i tips recs := by
  obtain ⟨r, hr, hs⟩ := h
  obtain ⟨r', hr', hgrow⟩ := hg i r hr
  exact ⟨r', hr', fun t ht => ⟨(hs t ht).1, fun x hx =>
    ((hs t ht).2 x hx).imp_left (fun ⟨o, ho⟩ => ⟨o, hgrow x o ho⟩)⟩⟩

/-- When nothing is left to land, the tips are stored. -/
theorem Arriving.storedAt {tips : List ObjectId} (h : Arriving u w i tips []) :
    StoredAt u w i tips := by
  obtain ⟨r, hr, hs⟩ := h
  refine ⟨r, hr, fun t ht => ⟨(hs t ht).1, fun x hx => ?_⟩⟩
  rcases (hs t ht).2 x hx with ho | ⟨o, ho⟩
  · exact ho
  · cases ho

theorem StoredAt.at {tips : List ObjectId} (h : StoredAt u w i tips) (hd : w i = some d) :
    ∀ t ∈ tips, Stores u d.store t := by
  obtain ⟨r, hr, hs⟩ := h
  rw [hd] at hr
  cases hr
  exact hs

theorem land_within {idOf : Object → ObjectId} {s store : Store} {rec : Record}
    (hs : Extends s u) (hrec : u.objects[rec.1]? = some rec.2)
    (hland : landRecord idOf s rec = .ok store) : Extends store u := by
  intro id o ho
  rcases (landRecord_landed hland).source id o ho with ho | ho
  · exact hs id o ho
  · rw [← List.mem_singleton.mp ho] at hrec
    exact hrec

/-- The tips a sound repository lists are stored there. -/
theorem Sound.listed (h : Sound u w) (hd : w i = some d) :
    StoredAt u w i (d.refs.listRefs.map (·.2)) := by
  refine ⟨d, hd, fun t ht => ?_⟩
  obtain ⟨e, he, rfl⟩ := List.mem_map.mp ht
  exact h.heads i d e.1 e.2 hd ((BTreeMap.mem_toList_iff d.refs.heads e.1 e.2).mp he)

theorem Sound.haves (h : Sound u w) (hd : w i = some d) : StoredAt u w i (localHaveTips d) := by
  refine ⟨d, hd, fun t ht => ?_⟩
  simp only [localHaveTips, List.mem_filter, List.mem_map, List.mem_append, Refs.listHeads,
    Refs.listRemoteTips] at ht
  obtain ⟨⟨e, he | he, rfl⟩, _⟩ := ht
  · exact h.heads i d e.1 e.2 hd ((BTreeMap.mem_toList_iff d.refs.heads e.1 e.2).mp he.1)
  · exact h.remotes i d e.1 e.2 hd ((BTreeMap.mem_toList_iff d.refs.remotes e.1 e.2).mp he.1)

end Worlds

section Updates

variable [DecidableEq ι] {u : Store} {w : World ι} {i : ι} {d d' : Repository}

theorem set_self : w.set i d i = some d := by
  unfold World.set
  exact Function.update_self i (some d) w

theorem set_of_ne {j : ι} (h : j ≠ i) : w.set i d j = w j := by
  unfold World.set
  exact Function.update_of_ne h (some d) w

theorem grows_set (hd : w i = some d) (h : Extends d.store d'.store) : Grows w (w.set i d') := by
  intro j r hr
  by_cases hj : j = i
  · subst hj
    rw [hd] at hr
    cases hr
    exact ⟨d', set_self, h⟩
  · exact ⟨r, by rw [set_of_ne hj, hr], .refl _⟩

theorem grows_set_new (hd : w i = none) : Grows w (w.set i d') := by
  intro j r hr
  have hj : j ≠ i := by
    rintro rfl
    rw [hd] at hr
    cases hr
  exact ⟨r, by rw [set_of_ne hj, hr], .refl _⟩

/-- A change of one repository keeps the world sound when the new value is. -/
theorem sound_set (h : Sound u w) (hin : Extends d'.store u)
    (hheads : ∀ (b : String) (t : ObjectId), d'.refs.heads[b]? = some t → Stores u d'.store t)
    (hremotes : ∀ (b : String) (t : ObjectId), d'.refs.remotes[b]? = some t → Stores u d'.store t) :
    Sound u (w.set i d') := by
  have hset : ∀ {j r}, w.set i d' j = some r → r = d' ∨ w j = some r := by
    intro j r hr
    by_cases hj : j = i
    · subst hj
      rw [set_self] at hr
      cases hr
      exact .inl rfl
    · rw [set_of_ne hj] at hr
      exact .inr hr
  refine ⟨fun j r hr => ?_, fun j r b t hr => ?_, fun j r b t hr => ?_⟩
  · rcases hset hr with rfl | hr
    · exact hin
    · exact h.within j r hr
  · rcases hset hr with rfl | hr
    · exact hheads b t
    · exact h.heads j r b t hr
  · rcases hset hr with rfl | hr
    · exact hremotes b t
    · exact h.remotes j r b t hr

/-- A store that grows within the universe keeps the world sound. -/
theorem sound_set_store (h : Sound u w) (hd : w i = some d) (hrefs : d'.refs = d.refs)
    (hgrow : Extends d.store d'.store) (hin : Extends d'.store u) : Sound u (w.set i d') := by
  refine sound_set h hin (fun b t hb => ?_) (fun b t hb => ?_)
  · rw [hrefs] at hb
    exact (h.heads i d b t hd hb).mono hgrow
  · rw [hrefs] at hb
    exact (h.remotes i d b t hd hb).mono hgrow

theorem sameRefs_set (hd : w i = some d) (h : d'.refs = d.refs) : SameRefs w (w.set i d') := by
  intro j
  by_cases hj : j = i
  · subst hj
    rw [hd, set_self]
    simp [h]
  · rw [set_of_ne hj]

/-- Landing one record of the universe moves it from the debt into the store. -/
theorem arriving_land {idOf : Object → ObjectId} {tips : List ObjectId} {rec : Record}
    {recs : List Record} {store : Store} (h : Arriving u w i tips (rec :: recs)) (hd : w i = some d)
    (hland : landRecord idOf d.store rec = .ok store) :
    Arriving u (w.set i { d with store }) i tips recs := by
  have hl := landRecord_landed hland
  obtain ⟨r, hr, hs⟩ := h
  rw [hd] at hr
  cases hr
  refine ⟨_, set_self, fun t ht => ⟨(hs t ht).1, fun x hx => ?_⟩⟩
  rcases (hs t ht).2 x hx with ⟨o, ho⟩ | ⟨o, ho⟩
  · exact .inl ⟨o, hl.grows x o ho⟩
  · rcases List.mem_cons.mp ho with rfl | ho
    · exact .inl (hl.holds (x, o) (by simp))
    · exact .inr ⟨o, ho⟩

end Updates

/-! ## Other processes leave a claim true -/

section Claims

variable {u : Store} {hist : List (Move (World ι))} {w w' : World ι} {pid : Nat}
  {m : Move (World ι)}

theorem ListedAt.mono {cmd : Command ι} {refs : RefList} (h : ListedAt hist pid cmd refs) :
    ListedAt (hist ++ [m]) pid cmd refs :=
  ⟨h.1, h.2.imp (fun _ hm => ⟨List.mem_append_left _ hm.1, hm.2⟩)⟩

theorem Quiet.other (h : Quiet hist pid) (hm : m.pid ≠ pid) : Quiet (hist ++ [m]) pid := by
  intro m' hm' hpid
  rcases List.mem_append.mp hm' with hm' | hm'
  · exact h m' hm' hpid
  · rw [List.mem_singleton.mp hm'] at hpid
    exact absurd hpid hm

theorem Quiet.own (h : Quiet hist pid) (hs : SameRefs w w') :
    Quiet (hist ++ [⟨pid, w, w'⟩]) pid := by
  intro m' hm' hpid
  rcases List.mem_append.mp hm' with hm' | hm'
  · exact h m' hm' hpid
  · rw [List.mem_singleton.mp hm']
    exact hs

theorem phaseClaim_mono {cmd : Command ι} {ph : Phase} (h : phaseClaim u hist w pid cmd ph)
    (hg : Grows w w') : phaseClaim u (hist ++ [m]) w' pid cmd ph := by
  cases ph with
  | begin => trivial
  | listed refs head => exact ⟨h.1.mono, h.2.mono hg⟩
  | asked refs head haves => exact ⟨h.1.mono, h.2.1.mono hg, h.2.2.mono hg⟩
  | tipRead branch tip => exact StoredAt.mono h hg
  | checked branch tip old =>
    obtain ⟨hs, d, hd⟩ := h
    obtain ⟨d', hd', _⟩ := hg _ d hd
    exact ⟨hs.mono hg, d', hd'⟩
  | selecting branch tip old todo send =>
    obtain ⟨hs, d, hd, hsel⟩ := h
    obtain ⟨d', hd', hgrow⟩ := hg _ d hd
    refine ⟨hs.mono hg, d', hd', fun x hx => ?_⟩
    rcases hsel x hx with hx | hx | ⟨o, ho⟩
    · exact .inl hx
    · exact .inr (.inl hx)
    · exact .inr (.inr ⟨o, hgrow x o ho⟩)
  | landing goal recs => exact ⟨fun refs head hgoal => (h.1 refs head hgoal).mono, h.2.1.mono hg, h.2.2⟩
  | recording refs head writes => exact ⟨h.1.mono, h.2.1.mono hg, h.2.2⟩

theorem claim_stable {q : (Command ι × Phase) ⊕ Result ι} (hg : Grows w w') (hm : m.pid ≠ pid)
    (h : claim u hist w pid q) : claim u (hist ++ [m]) w' pid q := by
  match q with
  | .inl (cmd, ph) => exact ⟨phaseClaim_mono h.1 hg, fun hp => (h.2 hp).other hm⟩
  | .inr (.pulled cmd (.ok refs)) => exact ⟨h.1.mono, h.2.mono hg⟩
  | .inr (.pulled cmd (.error e)) => trivial
  | .inr (.pushed src dst (.ok tip)) => exact StoredAt.mono h hg
  | .inr (.pushed src dst (.error e)) => exact Quiet.other h hm

end Claims

end Sync

end SrcControl
