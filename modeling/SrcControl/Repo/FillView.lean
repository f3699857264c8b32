import SrcControl.Repo.FillFetch
import SrcControl.Repo.SparseLaws

/-!
# Filling is complete

Round by round the walk reads the trees of one depth and fetches what the view needs of them. A
tree that is seen again under the view need not be read again: below a path of the view everything
is in view. What the walk leaves behind holds every tree and blob of the view.
-/

namespace SrcControl.Fill

open Sparse (AtOrBelow matchesPath_below)
open Transport (Extends)

abbrev Item := ObjectId × String

/-! ## The view's closure -/

/-- A tree of the view, with its depth and path: the root, and the subtrees descended into. -/
inductive Reached (world : ObjectId → Option Object) (sparse : Sparse) (root : ObjectId) :
    Nat → ObjectId → String → Prop
  | root : Reached world sparse root 0 root ""
  | down {n : Nat} {id : ObjectId} {path : String} {t : Tree} {e : TreeEntry}
    (hr : Reached world sparse root n id path) (ht : world id = some (.tree t))
    (he : e ∈ t.entries) (hk : e.kind = .tree)
    (hd : sparse.shouldDescend (childPath path e.name) = true) :
    Reached world sparse root (n + 1) e.id (childPath path e.name)

/-- The view needs this entry of a tree at `path`. -/
def Wanted (sparse : Sparse) (path : String) (e : TreeEntry) : Prop :=
  match e.kind with
  | .blob => sparse.matchesPath (childPath path e.name) = true
  | .tree => sparse.shouldDescend (childPath path e.name) = true

/-- The closure of the view: the root, and every entry that the view needs of a tree in it. -/
def InView (world : ObjectId → Option Object) (sparse : Sparse) (root id : ObjectId) : Prop :=
  id = root ∨ ∃ n tid path t e, Reached world sparse root n tid path ∧
    world tid = some (.tree t) ∧ e ∈ t.entries ∧ Wanted sparse path e ∧ e.id = id

/-- Either no prefix of the view is made of slashes alone, or no entry's name is empty. -/
def Plain (world : ObjectId → Option Object) (sparse : Sparse) (root : ObjectId) : Prop :=
  sparse.matchesPath "" = true → sparse.isFull = true ∨
    ∀ n id path t e, Reached world sparse root n id path → world id = some (.tree t) →
      e ∈ t.entries → e.name ≠ ""

/-- Everything below the path is in the view. -/
def Deep (sparse : Sparse) (path : String) : Prop :=
  sparse.isFull = true ∨ path ≠ "" ∧ sparse.matchesPath path = true

section Paths

variable {world : ObjectId → Option Object} {sparse : Sparse} {root : ObjectId}

theorem matches_of_full (h : sparse.isFull = true) (path : String) :
    sparse.matchesPath path = true := by
  rw [Sparse.matchesPath_iff_below]
  exact .inl (List.isEmpty_iff.mp h)

theorem Deep.matches {path : String} (h : Deep sparse path) : sparse.matchesPath path = true :=
  h.elim (fun hf => matches_of_full hf path) And.right

theorem Deep.child {path : String} (h : Deep sparse path) (name : String) :
    sparse.matchesPath (childPath path name) = true := by
  rcases h with hf | ⟨hne, hm⟩
  · exact matches_of_full hf _
  · rw [childPath, if_neg hne]
    exact matchesPath_below hm (.inr ⟨name, rfl⟩)

theorem descend_of_matches {path : String} (h : sparse.matchesPath path = true) :
    sparse.shouldDescend path = true := by
  simp [Sparse.shouldDescend, h]

theorem Deep.wanted {path : String} (h : Deep sparse path) (e : TreeEntry) :
    Wanted sparse path e := by
  unfold Wanted
  cases e.kind with
  | blob => exact h.child e.name
  | tree => exact descend_of_matches (h.child e.name)

theorem childPath_eq_empty {path name : String} (h : childPath path name = "") : name = "" := by
  unfold childPath at h
  split_ifs at h
  · exact h
  · have hlen := congrArg (fun s => s.toList.length) h
    simp [String.toList_append] at hlen

/-- A child the view matches has everything below it in the view. -/
theorem deep_child (hp : Plain world sparse root) {n : Nat} {id : ObjectId} {path : String}
    {t : Tree} {e : TreeEntry} (hr : Reached world sparse root n id path)
    (ht : world id = some (.tree t)) (he : e ∈ t.entries)
    (hm : sparse.matchesPath (childPath path e.name) = true) :
    Deep sparse (childPath path e.name) := by
  by_cases hempty : childPath path e.name = ""
  · have hname := childPath_eq_empty hempty
    rw [hempty] at hm
    rcases hp hm with hf | hnames
    · exact .inl hf
    · exact absurd hname (hnames n id path t e hr ht he)
  · exact .inr ⟨hempty, hm⟩

end Paths

/-! ## One round -/

/-- What reading some entries, each with the path of its tree, makes of a level. -/
structure Collected (sparse : Sparse) (l : Level) (reads : List (String × TreeEntry))
    (l' : Level) : Prop where
  want : ∀ id, id ∈ l'.want ↔ id ∈ l.want ∨ ∃ pe ∈ reads, Wanted sparse pe.1 pe.2 ∧ pe.2.id = id
  next_old : ∀ it ∈ l.next, it ∈ l'.next
  next_new : ∀ it ∈ l'.next, it ∈ l.next ∨ ∃ pe ∈ reads, pe.2.kind = .tree ∧
    Wanted sparse pe.1 pe.2 ∧ it = (pe.2.id, childPath pe.1 pe.2.name)
  seen_old : ∀ k ∈ l.seen, k ∈ l'.seen
  seen_new : ∀ k ∈ l'.seen, k ∈ l.seen ∨ ∃ it ∈ l'.next, seenKey sparse it.1 it.2 = k
  covered : ∀ pe ∈ reads, pe.2.kind = .tree → Wanted sparse pe.1 pe.2 →
    seenKey sparse pe.2.id (childPath pe.1 pe.2.name) ∈ l'.seen

section Round

variable {sparse : Sparse}

theorem Collected.refl (l : Level) : Collected sparse l [] l :=
  ⟨by simp, fun _ h => h, fun _ h => .inl h, fun _ h => h, fun _ h => .inl h, by simp⟩

theorem Collected.append {l l₁ l₂ : Level} {reads reads' : List (String × TreeEntry)}
    (h : Collected sparse l reads l₁) (h' : Collected sparse l₁ reads' l₂) :
    Collected sparse l (reads ++ reads') l₂ := by
  refine ⟨fun id => ?_, fun it hit => h'.next_old it (h.next_old it hit), fun it hit => ?_,
    fun k hk => h'.seen_old k (h.seen_old k hk), fun k hk => ?_, fun pe hpe hk hw => ?_⟩
  · rw [h'.want, h.want, or_assoc]
    simp only [List.mem_append, or_and_right, exists_or]
  · rcases h'.next_new it hit with hit | ⟨pe, hpe, hnew⟩
    · exact (h.next_new it hit).imp (fun h => h)
        fun ⟨pe, hpe, hnew⟩ => ⟨pe, List.mem_append_left _ hpe, hnew⟩
    · exact .inr ⟨pe, List.mem_append_right _ hpe, hnew⟩
  · rcases h'.seen_new k hk with hk | hnew
    · exact (h.seen_new k hk).imp (fun h => h)
        fun ⟨it, hit, hkey⟩ => ⟨it, h'.next_old it hit, hkey⟩
    · exact .inr hnew
  · rcases List.mem_append.mp hpe with hpe | hpe
    · exact h'.seen_old _ (h.covered pe hpe hk hw)
    · exact h'.covered pe hpe hk hw

theorem readEntry_collected (path : String) (l : Level) (e : TreeEntry) :
    Collected sparse l [(path, e)] (readEntry sparse path l e) := by
  have hinsert : ∀ id, id ∈ l.want.insert e.id ↔ id ∈ l.want ∨ e.id = id := fun id => by
    rw [BTreeSet.mem_insert, or_comm, eq_comm]
  unfold readEntry
  cases hkind : e.kind with
  | blob =>
    dsimp only
    split_ifs with hm
    · refine ⟨fun id => ?_, fun _ h => h, fun _ h => .inl h, fun _ h => h, fun _ h => .inl h, ?_⟩
      · simp [hinsert, Wanted, hkind, hm]
      · simp [hkind]
    · refine ⟨fun id => ?_, fun _ h => h, fun _ h => .inl h, fun _ h => h, fun _ h => .inl h, ?_⟩
      · simp [Wanted, hkind, hm]
      · simp [hkind]
  | tree =>
    dsimp only
    split_ifs with hd hseen
    · refine ⟨fun id => ?_, fun _ h => h, fun _ h => .inl h, fun _ h => h, fun _ h => .inl h, ?_⟩
      · simp [hinsert, Wanted, hkind, hd]
      · simp [hseen]
    · refine ⟨fun id => ?_, fun _ h => List.mem_append_left _ h, fun it hit => ?_,
        fun _ h => List.mem_append_left _ h, fun k hk => ?_, ?_⟩
      · simp [hinsert, Wanted, hkind, hd]
      · refine (List.mem_append.mp hit).imp (fun h => h) fun hit => ?_
        exact ⟨(path, e), List.mem_cons_self, hkind, by simp [Wanted, hkind, hd],
          List.mem_singleton.mp hit⟩
      · refine (List.mem_append.mp hk).imp (fun h => h) fun hk => ?_
        exact ⟨_, List.mem_append_right _ List.mem_cons_self, (List.mem_singleton.mp hk).symm⟩
      · simp
    · refine ⟨fun id => ?_, fun _ h => h, fun _ h => .inl h, fun _ h => h, fun _ h => .inl h, ?_⟩
      · simp [Wanted, hkind, hd]
      · simp [Wanted, hkind, hd]

theorem readEntries_collected (path : String) (es : List TreeEntry) (l : Level) :
    Collected sparse l (es.map (fun e => (path, e))) (es.foldl (readEntry sparse path) l) := by
  induction es generalizing l with
  | nil => exact .refl l
  | cons e es ih => exact (readEntry_collected path l e).append (ih _)

/-- The entries read of a frontier are those of its trees. -/
def ReadsOf (store : Store) (frontier : List Item) (reads : List (String × TreeEntry)) : Prop :=
  (∀ it ∈ frontier, ∃ t, store.getTree it.1 = .ok t ∧ ∀ e ∈ t.entries, (it.2, e) ∈ reads) ∧
    ∀ pe ∈ reads, ∃ it ∈ frontier, ∃ t, store.getTree it.1 = .ok t ∧ pe.1 = it.2 ∧ pe.2 ∈ t.entries

theorem readLevel_collected {store : Store} {frontier : List Item} {l l' : Level}
    (h : readLevel store sparse frontier l = .ok l') :
    ∃ reads, Collected sparse l reads l' ∧ ReadsOf store frontier reads := by
  induction frontier generalizing l with
  | nil =>
    cases h
    exact ⟨[], .refl _, by simp, by simp⟩
  | cons it frontier ih =>
    rw [readLevel, List.foldlM_cons] at h
    obtain ⟨l₁, hl₁, h⟩ := Fallible.bind_ok h
    obtain ⟨t, ht, hl₁⟩ := Fallible.bind_ok hl₁
    cases hl₁
    obtain ⟨reads, hcol, hof, hback⟩ := ih h
    refine ⟨_, (readEntries_collected it.2 t.entries _).append hcol, ?_, ?_⟩
    · rintro it' (_ | ⟨_, hit⟩)
      · exact ⟨t, ht, fun e he => List.mem_append_left _ (List.mem_map_of_mem he)⟩
      · obtain ⟨t', ht', hes⟩ := hof it' hit
        exact ⟨t', ht', fun e he => List.mem_append_right _ (hes e he)⟩
    · intro pe hpe
      rcases List.mem_append.mp hpe with hpe | hpe
      · obtain ⟨e, he, rfl⟩ := List.mem_map.mp hpe
        exact ⟨it, List.mem_cons_self, t, ht, rfl, he⟩
      · obtain ⟨it', hit, hrest⟩ := hback pe hpe
        exact ⟨it', List.mem_cons_of_mem _ hit, hrest⟩

end Round

/-! ## The rounds -/

section Rounds

variable {env : FillEnv} {world : ObjectId → Option Object} {sparse : Sparse} {root : ObjectId}

/-- After some rounds: every tree of a round before was read and what the view needs of it is held,
and the trees seen are the ones read or the ones to read next. -/
structure Walked (world : ObjectId → Option Object) (sparse : Sparse) (root : ObjectId)
    (depth : Nat) (store : Store) (processed frontier : List Item)
    (seen : List (ObjectId × Option String)) : Prop where
  start : (root, "") ∈ processed ++ frontier
  reached : ∀ it ∈ frontier, Reached world sparse root depth it.1 it.2
  held : ∀ it ∈ processed ++ frontier, store.contains it.1 = true
  done : ∀ it ∈ processed, ∀ t, world it.1 = some (.tree t) → ∀ e ∈ t.entries,
    Wanted sparse it.2 e → store.contains e.id = true ∧
      (e.kind = .tree → seenKey sparse e.id (childPath it.2 e.name) ∈ seen)
  seen : ∀ k ∈ seen, ∃ it ∈ processed ++ frontier, seenKey sparse it.1 it.2 = k ∧
    (sparse.matchesPath it.2 = true → Deep sparse it.2)

theorem getTree_world {store : Store} (hw : Within world store) {id : ObjectId} {t : Tree}
    (h : store.getTree id = .ok t) : world id = some (.tree t) :=
  hw id _ (Store.get_eq_ok_iff.mp (Store.getTree_eq_ok_iff.mp h))

/-- What a round asks for is in the view. -/
theorem want_inView {store : Store} (hw : Within world store) {depth : Nat} {frontier : List Item}
    (hreached : ∀ it ∈ frontier, Reached world sparse root depth it.1 it.2)
    {reads : List (String × TreeEntry)} (hof : ReadsOf store frontier reads)
    {seen : List (ObjectId × Option String)} {l : Level}
    (hcol : Collected sparse ⟨∅, [], seen⟩ reads l) {id : ObjectId} (hid : id ∈ l.want) :
    InView world sparse root id := by
  rcases (hcol.want id).mp hid with hnone | ⟨pe, hpe, hwanted, rfl⟩
  · exact absurd hnone (by simp)
  · obtain ⟨it, hit, t, ht, hp, he⟩ := hof.2 pe hpe
    exact .inr ⟨depth, it.1, it.2, t, pe.2, hreached it hit, getTree_world hw ht, he, hp ▸ hwanted,
      rfl⟩

/-- One round keeps the invariant. -/
theorem Walked.round (hp : Plain world sparse root) {depth : Nat} {store store' : Store}
    (hw : Within world store) (hext : Extends store store')
    {processed frontier : List Item} {seen : List (ObjectId × Option String)}
    (h : Walked world sparse root depth store processed frontier seen)
    {reads : List (String × TreeEntry)} {l : Level}
    (hcol : Collected sparse ⟨∅, [], seen⟩ reads l) (hof : ReadsOf store frontier reads)
    (hall : ∀ id ∈ l.want, store'.contains id = true) :
    Walked world sparse root (depth + 1) store' (processed ++ frontier) l.next l.seen := by
  have hnext : ∀ it ∈ l.next, ∃ p t e, (∃ id, Reached world sparse root depth id p ∧
      world id = some (.tree t)) ∧ e ∈ t.entries ∧ e.kind = .tree ∧ Wanted sparse p e ∧
      it = (e.id, childPath p e.name) := by
    intro it hit
    rcases hcol.next_new it hit with hnone | ⟨pe, hpe, hk, hwanted, rfl⟩
    · cases hnone
    · obtain ⟨src, hsrc, t, ht, hpath, he⟩ := hof.2 pe hpe
      exact ⟨pe.1, t, pe.2, ⟨src.1, hpath ▸ h.reached src hsrc, getTree_world hw ht⟩, he, hk,
        hwanted, rfl⟩
  refine ⟨List.mem_append_left _ h.start, ?_, ?_, ?_, ?_⟩
  · intro it hit
    obtain ⟨p, t, e, ⟨id, hr, ht⟩, he, hk, hwanted, rfl⟩ := hnext it hit
    have hd : sparse.shouldDescend (childPath p e.name) = true := by
      simpa only [Wanted, hk] using hwanted
    exact .down hr ht he hk hd
  · intro it hit
    rcases List.mem_append.mp hit with hit | hit
    · exact contains_of_extends hext (h.held it hit)
    · obtain ⟨p, t, e, -, -, -, -, rfl⟩ := hnext it hit
      rcases hcol.next_new _ hit with hnone | ⟨pe, hpe, hk, hwanted, heq⟩
      · cases hnone
      · exact hall _ ((hcol.want _).mpr (.inr ⟨pe, hpe, hwanted, (congrArg Prod.fst heq).symm⟩))
  · intro it hit t ht e he hwanted
    rcases List.mem_append.mp hit with hit | hit
    · obtain ⟨hheld, hseen⟩ := h.done it hit t ht e he hwanted
      exact ⟨contains_of_extends hext hheld, fun hk => hcol.seen_old _ (hseen hk)⟩
    · obtain ⟨t', ht', hes⟩ := hof.1 it hit
      have hsame := getTree_world hw ht'
      rw [ht] at hsame
      cases hsame
      have hread := hes e he
      exact ⟨hall _ ((hcol.want _).mpr (.inr ⟨_, hread, hwanted, rfl⟩)),
        fun hk => hcol.covered _ hread hk hwanted⟩
  · intro k hk
    rcases hcol.seen_new k hk with hold | ⟨it, hit, hkey⟩
    · obtain ⟨it, hit, hkey⟩ := h.seen k hold
      exact ⟨it, List.mem_append_left _ hit, hkey⟩
    · refine ⟨it, List.mem_append_right _ hit, hkey, fun hm => ?_⟩
      obtain ⟨p, t, e, ⟨id, hr, ht⟩, he, -, -, rfl⟩ := hnext it hit
      exact deep_child hp hr ht he hm

/-- A tree reached was read, if not at this path then at one from which everything is in view, as
it is from this. -/
theorem Walked.located (hp : Plain world sparse root) {depth : Nat} {store : Store}
    {processed : List Item} {seen : List (ObjectId × Option String)}
    (h : Walked world sparse root depth store processed [] seen) {n : Nat} {id : ObjectId}
    {path : String} (hr : Reached world sparse root n id path) :
    ∃ it ∈ processed, it.1 = id ∧ (it.2 = path ∨ Deep sparse it.2 ∧ Deep sparse path) := by
  have hstart := h.start
  have hseen := h.seen
  rw [List.append_nil] at hstart hseen
  induction hr with
  | root => exact ⟨_, hstart, rfl, .inl rfl⟩
  | @down n id path t e hr ht he hk hd ih =>
    obtain ⟨it, hit, rfl, hsame⟩ := ih
    have hwanted : Wanted sparse it.2 e := by
      rcases hsame with rfl | ⟨hdeep, -⟩
      · simpa only [Wanted, hk] using hd
      · exact hdeep.wanted e
    obtain ⟨it', hit', hkey, hdeep'⟩ := hseen _ ((h.done it hit t ht e he hwanted).2 hk)
    obtain ⟨hid, hpath⟩ := Prod.mk.inj hkey
    refine ⟨it', hit', hid, ?_⟩
    have hboth : ∀ c, seenKey sparse e.id c = seenKey sparse it'.1 it'.2 →
        sparse.matchesPath c = true → Deep sparse it'.2 := by
      intro c hc hm
      refine hdeep' ?_
      have hsnd := (Prod.mk.inj hc).2
      rw [if_pos hm] at hsnd
      by_contra hno
      rw [if_neg hno] at hsnd
      cases hsnd
    by_cases hm : sparse.matchesPath (childPath it.2 e.name) = true
    · refine .inr ⟨hboth _ hkey.symm hm, ?_⟩
      rcases hsame with hsame | ⟨-, hdeep⟩
      · rw [hsame] at hm
        exact deep_child hp hr ht he hm
      · exact deep_child hp hr ht he (hdeep.child e.name)
    · rcases hsame with hsame | ⟨hdeep, -⟩
      · rw [if_neg hm] at hpath
        split_ifs at hpath
        exact .inl ((Option.some.inj hpath).trans (by rw [hsame]))
      · exact absurd (hdeep.child e.name) hm

/-- A finished walk leaves the whole view present. -/
theorem Walked.complete (hp : Plain world sparse root) {depth : Nat} {store : Store}
    {processed : List Item} {seen : List (ObjectId × Option String)}
    (h : Walked world sparse root depth store processed [] seen) {id : ObjectId}
    (hid : InView world sparse root id) : store.contains id = true := by
  rcases hid with rfl | ⟨n, tid, path, t, e, hr, ht, he, hwanted, rfl⟩
  · exact h.held _ h.start
  · obtain ⟨it, hit, rfl, hsame⟩ := h.located hp hr
    have hown : Wanted sparse it.2 e := by
      rcases hsame with hsame | ⟨hdeep, -⟩
      · rwa [hsame]
      · exact hdeep.wanted e
    exact (h.done it hit t ht e he hown).1

/-- The rounds end within the depth of the tree, add only what is in the view, and where they
succeed leave a finished walk. -/
theorem fillRounds_walked (hh : Honest env world) (hp : Plain world sparse root)
    (origin : Option String) {fuel depth : Nat}
    (hdepth : ∀ id path, ¬Reached world sparse root (depth + fuel) id path)
    {processed frontier : List Item} {seen : List (ObjectId × Option String)} {s : FillState}
    (hw : Within world s.store)
    (h : Walked world sparse root depth s.store processed frontier seen) :
    Brought world (InView world sparse root) s
        (fillRounds env origin sparse fuel frontier seen s).2 ∧
      ((fillRounds env origin sparse fuel frontier seen s).1 = .ok () →
        ∀ id, InView world sparse root id →
          (fillRounds env origin sparse fuel frontier seen s).2.store.contains id = true) ∧
      (fillRounds env origin sparse fuel frontier seen s).1 ≠ .error .fuel := by
  induction fuel generalizing depth processed frontier seen s with
  | zero =>
    cases frontier with
    | nil => exact ⟨.refl hw, fun _ id => h.complete hp, fun hf => by cases hf⟩
    | cons it rest => exact absurd (h.reached it List.mem_cons_self) (hdepth _ _)
  | succ fuel ih =>
    cases frontier with
    | nil => exact ⟨.refl hw, fun _ id => h.complete hp, fun hf => by cases hf⟩
    | cons it rest =>
      rw [fillRounds]
      cases hlevel : readLevel s.store sparse (it :: rest) ⟨∅, [], seen⟩ with
      | error e =>
        refine ⟨.refl hw, fun hf => ?_, fun hf => ?_⟩
        · cases hf
        · cases hf
      | ok l =>
        obtain ⟨reads, hcol, hof⟩ := readLevel_collected hlevel
        obtain ⟨hb, hall, hfuel⟩ := ensureMany_step hh origin l.want it.2 true s hw
        have hview : Brought world (InView world sparse root) s
            (ensureMany env origin l.want it.2 true s).2 :=
          hb.mono fun id hid => want_inView hw h.reached hof hcol (Std.ExtTreeSet.mem_toList.mp hid)
        dsimp only
        cases hrun : ensureMany env origin l.want it.2 true s with
        | mk result s₁ =>
          rw [hrun] at hview hall hfuel
          cases result with
          | error e =>
            refine ⟨hview, fun hf => ?_, fun hf => hfuel ?_⟩
            · cases hf
            · cases hf
              rfl
          | ok u =>
            have hround := h.round hp hw hview.grows hcol hof
              (fun id hid => hall rfl id (Std.ExtTreeSet.mem_toList.mpr hid))
            obtain ⟨hb', hall', hfuel'⟩ := ih
              (fun id path => by rw [Nat.add_right_comm, Nat.add_assoc]; exact hdepth id path)
              hview.within hround
            exact ⟨hview.trans hb', hall', hfuel'⟩

/-- The clone fills this view: it is lazy and online, and the view is not the full one of a clone
that lacks paths. -/
def Fills (env : FillEnv) (sparse : Sparse) (offline : Bool) : Prop :=
  ∃ p, env.promisor = some p ∧ env.lazy = true ∧ offline = false ∧
    (sparse.isFull = true → p.allPaths = true)

/-- `ensure_view` ends; where the clone fills the view and it returns `Ok`, the whole closure is
present; and what it stored is in the closure and was asked for. -/
structure FillsView (env : FillEnv) (world : ObjectId → Option Object) (sparse : Sparse)
    (root : ObjectId) (offline : Bool) (store : Store) (out : Filled) : Prop where
  ends : out.1 ≠ .error .fuel
  complete : Fills env sparse offline → out.1 = .ok () →
    ∀ id, InView world sparse root id → out.2.store.contains id = true
  only : ∀ id, out.2.store.contains id = true → store.contains id = true ∨
    InView world sparse root id ∧ ∃ b ∈ out.2.log, id ∈ b.1

theorem fillOrigin_of_fills {offline : Bool} (h : Fills env sparse offline) :
    (sparse.isFull && !env.promisor.any (·.allPaths)) = false ∧
      ∃ origin, fillOrigin env offline = some origin := by
  obtain ⟨p, hpromisor, hlazy, rfl, hfull⟩ := h
  constructor
  · cases hf : sparse.isFull with
    | false => rfl
    | true => simp [hpromisor, hfull hf]
  · exact ⟨p.origin, by simp [fillOrigin, hpromisor, hlazy]⟩

theorem fillView_fills (hh : Honest env world) (hp : Plain world sparse root) {fuel : Nat}
    (hdepth : ∀ id path, ¬Reached world sparse root fuel id path) (origin : Option String)
    {s : FillState} (hw : Within world s.store) :
    Brought world (InView world sparse root) s (fillView env origin fuel root sparse s).2 ∧
      ((fillView env origin fuel root sparse s).1 = .ok () → ∀ id, InView world sparse root id →
        (fillView env origin fuel root sparse s).2.store.contains id = true) ∧
      (fillView env origin fuel root sparse s).1 ≠ .error .fuel := by
  have hroot : ∀ id, id ∈ (BTreeSet.ofList [root]).toList ↔ id = root := fun id => by
    rw [BTreeSet.mem_toList_ofList, List.mem_singleton]
  obtain ⟨hb, hall, hfuel⟩ := ensureMany_step hh origin (BTreeSet.ofList [root]) "" true s hw
  have hview := hb.mono fun id hid => (.inl ((hroot id).mp hid) : InView world sparse root id)
  rw [fillView]
  cases hrun : ensureMany env origin (BTreeSet.ofList [root]) "" true s with
  | mk result s₁ =>
    rw [hrun] at hview hall hfuel
    cases result with
    | error e =>
      refine ⟨hview, fun hf => ?_, fun hf => hfuel ?_⟩
      · cases hf
      · cases hf
        rfl
    | ok u =>
      have hstart : Walked world sparse root 0 s₁.store [] [(root, "")] [] := by
        refine ⟨List.mem_cons_self, ?_, ?_, by simp, by simp⟩
        · intro it hit
          rw [List.mem_singleton.mp hit]
          exact .root
        · intro it hit
          rw [List.nil_append, List.mem_singleton] at hit
          rw [hit]
          exact hall rfl root ((hroot root).mpr rfl)
      obtain ⟨hb', hall', hfuel'⟩ := fillRounds_walked hh hp origin
        (fun id path => by rw [Nat.zero_add]; exact hdepth id path) hview.within hstart
      exact ⟨hview.trans hb', hall', hfuel'⟩

end Rounds

/-! ## Inputs -/

/-- The empty tree, under the digest of its encoding. -/
def bareTree : ObjectId := ⟨Object.testDigest [1, 0, 0, 0, 0]⟩

def barePack : Wire.Source := Transport.packOf [⟨bareTree, [1, 0, 0, 0, 0],
  [0x28, 0xb5, 0x2f, 0xfd, 0x00, 0x58, 0x29, 0x00, 0x00, 1, 0, 0, 0, 0]⟩]

/-- An origin that holds the empty tree and refuses any other batch. -/
def bareEnv : FillEnv where
  z := Pack.testZstd
  hash := Object.testDigest
  max := 256
  index _ _ := .ok ()
  reply _ ids := if ids = [bareTree] then .ok ⟨barePack, []⟩ else .error .packTooLarge
  connect := .ok ()
  promisor := some ⟨"origin", false⟩
  lazy := true
  gap _ path _ := .pathNotFound path

def bareWorld (id : ObjectId) : Option Object := if id = bareTree then some (.tree ⟨[]⟩) else none

theorem barePack_records : Pack.packRecords Pack.testZstd Object.testDigest 256 barePack =
    ([(bareTree, .tree ⟨[]⟩)], none) := rfl

theorem bareEnv_honest : Honest bareEnv bareWorld := by
  intro n ids r h
  change (if ids = [bareTree] then _ else _) = _ at h
  split_ifs at h with hids
  cases h
  have hrecords : bareEnv.records ⟨barePack, []⟩ = [(bareTree, .tree ⟨[]⟩)] :=
    congrArg Prod.fst barePack_records
  refine ⟨rfl, congrArg Prod.snd barePack_records, ?_, ?_⟩
  · rw [hrecords, hids]
    exact .refl _
  · rw [hrecords]
    intro rec hrec
    rw [List.mem_singleton.mp hrec]
    exact ⟨rfl, by decide⟩

theorem bareWorld_flat {root : ObjectId} (id : ObjectId) (path : String) :
    ¬Reached bareWorld ["src"] root 1 id path := by
  intro h
  cases h with
  | down hr ht he hk hd =>
    unfold bareWorld at ht
    split_ifs at ht
    cases ht
    cases he

/-- A subtree under an empty name and under `x`, and the blob in it. -/
def slashObjects : List (UInt8 × Object) :=
  [(0, .tree ⟨[⟨"", .tree, testId 1, ⟨0⟩, 0⟩, ⟨"x", .tree, testId 1, ⟨0⟩, 0⟩]⟩),
    (1, .tree ⟨[⟨"y", .blob, testId 2, .FILE, 0⟩]⟩)]

def slashWorld (id : ObjectId) : Option Object :=
  (testStore (slashObjects ++ [(2, .blob [7])])).objects[id]?

end SrcControl.Fill
