import SrcControl.Lib.OrderedClasses
import SrcControl.Lib.DisjointSets
import SrcControl.Repo.Diff3
import SrcControl.Repo.Diff3Hunks

/-!
# Clusters of hunks

The clusters are the classes of the hunks that chains of interactions join. A hunk that does not
interact with another lies wholly before or behind it, so the clusters follow each other in the
base: all of one lies before all of the next.
-/

namespace SrcControl.Diff3

open DisjointSets Relation

/-! ## Hunks that do not interact -/

/-- The hunk ends where the other starts or before, strictly unless both replace lines. -/
def Before (h k : Hunk) : Prop :=
  h.baseEnd ≤ k.baseStart ∧
    (h.baseEnd = k.baseStart → h.baseStart < h.baseEnd ∧ k.baseStart < k.baseEnd)

variable {h k l : Hunk}

theorem Before.trans (hk : k.baseStart ≤ k.baseEnd) (hhk : Before h k) (hkl : Before k l) :
    Before h l := by
  obtain ⟨hle, hstrict⟩ := hhk
  obtain ⟨hle', hstrict'⟩ := hkl
  refine ⟨by omega, fun heq => ?_⟩
  have hmid : h.baseEnd = k.baseStart := by omega
  have hmid' : k.baseEnd = l.baseStart := by omega
  exact ⟨(hstrict hmid).1, (hstrict' hmid').2⟩

theorem Before.asymm (hh : h.baseStart ≤ h.baseEnd) (hk : k.baseStart ≤ k.baseEnd)
    (hhk : Before h k) : ¬Before k h := by
  rintro ⟨hle', hstrict'⟩
  obtain ⟨hle, hstrict⟩ := hhk
  have heq : h.baseEnd = k.baseStart := by omega
  have hpos := hstrict heq
  omega

theorem interacts_iff (h k : Hunk) : interacts h k = true ↔
    (h.baseStart = h.baseEnd ∧ k.baseStart = k.baseEnd ∧ h.baseStart = k.baseStart) ∨
    (h.baseStart = h.baseEnd ∧ k.baseStart ≠ k.baseEnd ∧ k.baseStart ≤ h.baseStart ∧
      h.baseStart ≤ k.baseEnd) ∨
    (h.baseStart ≠ h.baseEnd ∧ k.baseStart = k.baseEnd ∧ h.baseStart ≤ k.baseStart ∧
      k.baseStart ≤ h.baseEnd) ∨
    (h.baseStart ≠ h.baseEnd ∧ k.baseStart ≠ k.baseEnd ∧ h.baseStart < k.baseEnd ∧
      k.baseStart < h.baseEnd) := by
  rw [interacts]
  by_cases hh : h.baseStart = h.baseEnd <;> by_cases hk : k.baseStart = k.baseEnd <;>
    simp [hh, hk]

theorem interacts_symm (hint : interacts h k = true) : interacts k h = true := by
  rw [interacts_iff] at hint ⊢
  omega

theorem interacts_iff_not_before (hh : h.baseStart ≤ h.baseEnd) (hk : k.baseStart ≤ k.baseEnd) :
    interacts h k = true ↔ ¬Before h k ∧ ¬Before k h := by
  rw [interacts_iff, Before, Before]
  omega

theorem Apart.before {b : List String} {i : Nat} {hs : List Hunk} (hap : Apart b i hs) :
    hs.Pairwise Before := by
  have hstart : ∀ {i : Nat} {hs : List Hunk}, Apart b i hs → ∀ k ∈ hs, i ≤ k.baseStart := by
    intro i hs hap
    induction hap with
    | nil => exact fun k hk => absurd hk List.not_mem_nil
    | @cons i h hs hi hle hb hne _ ih =>
      intro k hk
      rcases List.mem_cons.mp hk with rfl | hk
      · exact hi
      · exact hi.trans (hle.trans ((Nat.le_succ _).trans (ih k hk)))
  induction hap with
  | nil => exact List.Pairwise.nil
  | cons hi hle hb hne hrest ih =>
    refine List.Pairwise.cons (fun k hk => ?_) ih
    have hlt := hstart hrest k hk
    exact ⟨by omega, fun heq => by omega⟩

/-! ## The forest of the clusters -/

variable {p : List Nat} {rep : Nat → Nat} {n x y r d fuel : Nat}

theorem findRoot_eq (h : Leads p x r d) (hd : d ≤ fuel) : findRoot p fuel x = r := by
  induction h generalizing fuel with
  | root h =>
    cases fuel with
    | zero => rfl
    | succ fuel => rw [findRoot, if_pos h]
  | step hx _ ih =>
    cases fuel with
    | zero => omega
    | succ fuel => rw [findRoot, if_neg hx, ih (by omega)]

theorem compressPath_represents (h : Represents n p rep) (hx : x < n) :
    Represents n (compressPath (rep x) fuel x p) rep := by
  induction fuel generalizing x p with
  | zero => exact h
  | succ fuel ih =>
    rw [compressPath]
    have hlen := h.length
    have hdef : p.getD x (rep x) = p.getD x x := by
      rw [List.getD_eq_getElem?_getD, List.getD_eq_getElem?_getD, List.getElem?_eq_getElem]
      · rfl
      · omega
    rw [hdef]
    split_ifs with hdone
    · exact h
    · obtain ⟨d, hd⟩ := h.leads x hx
      have hne : x ≠ rep x := by
        intro heq
        have hroot := hd.isRoot
        rw [← heq] at hroot
        exact hdone (hroot.trans heq)
      have hnext : rep (p.getD x x) = rep x := by
        obtain ⟨e, he⟩ := h.leads _ (h.lt x hx)
        obtain ⟨e', he'⟩ := hd.next hne
        exact (he.unique he').1
      have hred := ih (h.redirect hx hne) (h.lt x hx)
      rw [hnext] at hred
      exact hred

theorem find_spec (h : Represents n p rep) (hx : x < n) :
    (find p x).1 = rep x ∧ Represents n (find p x).2 rep := by
  obtain ⟨d, hd⟩ := h.leads x hx
  have hle := (hd.lt h.lt hx).le
  have hroot : findRoot p p.length x = rep x := findRoot_eq hd (h.length ▸ hle)
  refine ⟨hroot, ?_⟩
  rw [find, hroot]
  exact compressPath_represents h hx

/-! ## Joining the linked pairs -/

variable {all : List (Side × Hunk)}

/-- The two hunks come from different sides and interact. -/
def Linked (all : List (Side × Hunk)) (i j : Nat) : Prop :=
  ∃ a b, all[i]? = some a ∧ all[j]? = some b ∧ a.1 ≠ b.1 ∧ interacts a.2 b.2 = true

theorem Linked.symm {i j : Nat} (hl : Linked all i j) : Linked all j i := by
  obtain ⟨a, b, ha, hb, hne, hint⟩ := hl
  exact ⟨b, a, hb, ha, hne.symm, interacts_symm hint⟩

theorem Linked.lt {i j : Nat} (hl : Linked all i j) : i < all.length ∧ j < all.length := by
  obtain ⟨a, b, ha, hb, -, -⟩ := hl
  obtain ⟨hi, -⟩ := List.getElem?_eq_some_iff.mp ha
  obtain ⟨hj, -⟩ := List.getElem?_eq_some_iff.mp hb
  exact ⟨hi, hj⟩

def joinStep (all : List (Side × Hunk)) (parent : List Nat) (ij : Nat × Nat) : List Nat :=
  match all[ij.1]?, all[ij.2]? with
  | some (si, hi), some (sj, hj) =>
    if si ≠ sj ∧ interacts hi hj then
      let (ri, parent) := find parent ij.1
      let (rj, parent) := find parent ij.2
      if ri ≠ rj then parent.set ri rj else parent
    else parent
  | _, _ => parent

/-- The forest joins only hunks that chains of links join, and all linked pairs seen. -/
structure Joins (all : List (Side × Hunk)) (seen : List (Nat × Nat)) (rep : Nat → Nat) : Prop where
  linked : ∀ x < all.length, ∀ y < all.length, rep x = rep y → EqvGen (Linked all) x y
  seen : ∀ ij ∈ seen, Linked all ij.1 ij.2 → rep ij.1 = rep ij.2

theorem Joins.skip {seen : List (Nat × Nat)} {i j : Nat} (hj : Joins all seen rep)
    (hl : Linked all i j → rep i = rep j) : Joins all (seen ++ [(i, j)]) rep := by
  refine ⟨hj.linked, fun kl hkl hlink => ?_⟩
  rcases List.mem_append.mp hkl with hkl | hkl
  · exact hj.seen kl hkl hlink
  · obtain rfl := List.mem_singleton.mp hkl
    exact hl hlink

theorem Joins.union {seen : List (Nat × Nat)} {i j : Nat} (hj : Joins all seen rep)
    (hl : Linked all i j) :
    Joins all (seen ++ [(i, j)]) (fun z => if rep z = rep i then rep j else rep z) := by
  obtain ⟨hi, hlt⟩ := hl.lt
  have hij : EqvGen (Linked all) i j := .rel i j hl
  refine ⟨fun x hx y hy heq => ?_, fun kl hkl hlink => ?_⟩
  · split_ifs at heq with hxi hyi hyi
    · exact hj.linked x hx y hy (hxi.trans hyi.symm)
    · exact .trans x i y (hj.linked x hx i hi hxi) (.trans i j y hij (hj.linked j hlt y hy heq))
    · exact .trans x j y (hj.linked x hx j hlt heq)
        (.trans j i y (.symm i j hij) (hj.linked i hi y hy hyi.symm))
    · exact hj.linked x hx y hy heq
  · rcases List.mem_append.mp hkl with hkl | hkl
    · rw [hj.seen kl hkl hlink]
    · obtain rfl := List.mem_singleton.mp hkl
      change (if rep i = rep i then rep j else rep i) = if rep j = rep i then rep j else rep j
      rw [if_pos rfl, ite_self]

theorem joinStep_spec {seen : List (Nat × Nat)} {ij : Nat × Nat}
    (h : Represents all.length p rep) (hj : Joins all seen rep) :
    ∃ rep', Represents all.length (joinStep all p ij) rep' ∧ Joins all (seen ++ [ij]) rep' := by
  obtain ⟨i, j⟩ := ij
  by_cases hl : Linked all i j
  · obtain ⟨hi, hj'⟩ := hl.lt
    obtain ⟨⟨si, a⟩, ⟨sj, b⟩, ha, hb, hne, hint⟩ := id hl
    obtain ⟨hri, hpi⟩ := find_spec h hi
    obtain ⟨hrj, hpj⟩ := find_spec hpi hj'
    have hstep : joinStep all p (i, j) =
        if rep i ≠ rep j then (find (find p i).2 j).2.set (rep i) (rep j)
        else (find (find p i).2 j).2 := by
      rw [← hri, ← hrj, joinStep, ha, hb]
      simp only
      rw [if_pos ⟨hne, hint⟩]
    rw [hstep]
    split_ifs with heq
    · exact ⟨_, hpj.link hi hj' heq, hj.union hl⟩
    · exact ⟨rep, hpj, hj.skip (fun _ => not_not.mp heq)⟩
  · refine ⟨rep, ?_, hj.skip (fun hlink => absurd hlink hl)⟩
    have hsame : joinStep all p (i, j) = p := by
      rw [joinStep]
      rcases ha : all[i]? with _ | a <;> rcases hb : all[j]? with _ | b <;> simp only
      exact if_neg (fun hc => hl ⟨a, b, ha, hb, hc.1, hc.2⟩)
    rw [hsame]
    exact h

def indexPairs (n : Nat) : List (Nat × Nat) :=
  (List.range n).flatMap (fun i => ((List.range n).filter (fun j => i < j)).map (fun j => (i, j)))

theorem mem_indexPairs {n i j : Nat} (hij : i < j) (hj : j < n) : (i, j) ∈ indexPairs n := by
  refine List.mem_flatMap.mpr ⟨i, List.mem_range.mpr (hij.trans hj), ?_⟩
  exact List.mem_map.mpr ⟨j, List.mem_filter.mpr ⟨List.mem_range.mpr hj, by simpa using hij⟩, rfl⟩

def joined (all : List (Side × Hunk)) : List Nat :=
  (indexPairs all.length).foldl (joinStep all) (List.range all.length)

/-- Two hunks have one representative exactly when a chain of links joins them. -/
structure Classes (all : List (Side × Hunk)) (rep : Nat → Nat) : Prop where
  linked : ∀ x < all.length, ∀ y < all.length, rep x = rep y → EqvGen (Linked all) x y
  rep_eq : ∀ {x y}, Linked all x y → rep x = rep y

theorem joined_spec (all : List (Side × Hunk)) :
    ∃ rep, Represents all.length (joined all) rep ∧ Classes all rep := by
  have hrun : ∀ (todo seen : List (Nat × Nat)) (p : List Nat) (rep : Nat → Nat),
      Represents all.length p rep → Joins all seen rep →
      ∃ rep', Represents all.length (todo.foldl (joinStep all) p) rep' ∧
        Joins all (seen ++ todo) rep' := by
    intro todo
    induction todo with
    | nil => exact fun seen p rep h hj => ⟨rep, h, (List.append_nil seen).symm ▸ hj⟩
    | cons ij todo ih =>
      intro seen p rep h hj
      obtain ⟨rep', h', hj'⟩ := @joinStep_spec _ _ _ seen ij h hj
      obtain ⟨rep'', h'', hj''⟩ := ih _ _ rep' h' hj'
      rw [List.append_assoc, List.singleton_append] at hj''
      exact ⟨rep'', h'', hj''⟩
  obtain ⟨rep, h, hj⟩ := hrun (indexPairs all.length) [] (List.range all.length) id
    (represents_range all.length)
    ⟨fun x _ y _ (heq : x = y) => heq ▸ .refl x, fun ij hij => absurd hij List.not_mem_nil⟩
  refine ⟨rep, h, hj.linked, fun {x y} hl => ?_⟩
  obtain ⟨hx, hy⟩ := hl.lt
  rcases Nat.lt_trichotomy x y with hlt | rfl | hgt
  · exact hj.seen (x, y) (mem_indexPairs hlt hy) hl
  · rfl
  · exact (hj.seen (y, x) (mem_indexPairs hgt hx) hl.symm).symm

/-! ## The groups -/

abbrev Groups := BTreeMap Nat (List Nat) × List Nat

def groupStep (st : Groups) (i : Nat) : Groups :=
  let (r, parent) := find st.2 i
  (st.1.insert r (st.1.getD r [] ++ [i]), parent)

/-- The least base line where a hunk of the cluster starts. -/
def earliest (all : List (Side × Hunk)) (c : List Nat) : Nat :=
  (c.filterMap (fun i => (all[i]?).map (·.2.baseStart))).min?.getD 0

def groupsOf (all : List (Side × Hunk)) : BTreeMap Nat (List Nat) :=
  ((List.range all.length).foldl groupStep ((∅ : BTreeMap Nat (List Nat)), joined all)).1

theorem clusterHunks_eq (all : List (Side × Hunk)) : clusterHunks all =
    (groupsOf all).values.mergeSort (fun a b => decide (earliest all a ≤ earliest all b)) :=
  rfl

def classOf (rep : Nat → Nat) (is : List Nat) (r : Nat) : List Nat :=
  is.filter (fun i => rep i = r)

/-- The groups hold the indices seen so far, each under its representative. -/
def Grouped (rep : Nat → Nat) (is : List Nat) (groups : BTreeMap Nat (List Nat)) : Prop :=
  ∀ r, groups[r]? = if classOf rep is r = [] then none else some (classOf rep is r)

theorem Grouped.getD {is : List Nat} {groups : BTreeMap Nat (List Nat)}
    (h : Grouped rep is groups) (r : Nat) : groups.getD r [] = classOf rep is r := by
  rw [Std.ExtTreeMap.getD_eq_getD_getElem?, h r]
  split_ifs with hnil
  · exact hnil.symm
  · rfl

theorem groupStep_spec {is : List Nat} {st : Groups} {i : Nat} (h : Represents n st.2 rep)
    (hg : Grouped rep is st.1) (hi : i < n) :
    Represents n (groupStep st i).2 rep ∧ Grouped rep (is ++ [i]) (groupStep st i).1 := by
  obtain ⟨hroot, hnext⟩ := find_spec h hi
  refine ⟨hnext, fun r => ?_⟩
  have hgroups : (groupStep st i).1 = st.1.insert (rep i) (classOf rep is (rep i) ++ [i]) := by
    rw [← hroot, ← hg.getD]
    rfl
  have hclass : classOf rep (is ++ [i]) r = classOf rep is r ++ if rep i = r then [i] else [] := by
    rw [classOf, List.filter_append, classOf]
    by_cases heq : rep i = r <;> simp [heq]
  rw [hgroups, BTreeMap.getElem?_insert, hclass, hg r]
  split_ifs with heq hnil hnil <;> simp_all

theorem groupsOf_spec (all : List (Side × Hunk)) :
    ∃ rep, Classes all rep ∧ Grouped rep (List.range all.length) (groupsOf all) := by
  obtain ⟨rep, hrep, hclasses⟩ := joined_spec all
  have hrun : ∀ (todo is : List Nat) (st : Groups), Represents all.length st.2 rep →
      Grouped rep is st.1 → (∀ i ∈ todo, i < all.length) →
      Grouped rep (is ++ todo) (todo.foldl groupStep st).1 := by
    intro todo
    induction todo with
    | nil => exact fun is st _ hg _ => (List.append_nil is).symm ▸ hg
    | cons i todo ih =>
      intro is st h hg hlt
      obtain ⟨h', hg'⟩ := groupStep_spec h hg (hlt i List.mem_cons_self)
      have hrest := ih _ _ h' hg' (fun k hk => hlt k (List.mem_cons_of_mem i hk))
      rw [List.append_assoc, List.singleton_append] at hrest
      exact hrest
  refine ⟨rep, hclasses, hrun (List.range all.length) [] (∅, joined all) hrep ?_
    (fun i hi => List.mem_range.mp hi)⟩
  intro r
  simp [classOf]

/-! ## The clusters in order -/

/-- Hunks inside the base, those of one side in order. -/
structure Tagged (b : List String) (all : List (Side × Hunk)) : Prop where
  valid : ∀ a ∈ all, a.2.baseStart ≤ a.2.baseEnd ∧ a.2.baseEnd ≤ b.length
  ordered : all.Pairwise (fun a c => a.1 = c.1 → Before a.2 c.2)

def BeforeAt (all : List (Side × Hunk)) (i j : Nat) : Prop :=
  ∃ a b, all[i]? = some a ∧ all[j]? = some b ∧ Before a.2 b.2

variable {b : List String} {cs : List (List Nat)}

theorem Tagged.compared (ht : Tagged b all) {i j : Nat} (hi : i < all.length)
    (hj : j < all.length) (hlt : i < j) (hno : ¬Linked all i j) :
    BeforeAt all i j ∨ BeforeAt all j i := by
  have hgi := List.getElem?_eq_getElem hi
  have hgj := List.getElem?_eq_getElem hj
  by_cases hside : all[i].1 = all[j].1
  · exact .inl ⟨_, _, hgi, hgj, List.pairwise_iff_getElem.mp ht.ordered i j hi hj hlt hside⟩
  · have hvi := (ht.valid _ (List.getElem_mem hi)).1
    have hvj := (ht.valid _ (List.getElem_mem hj)).1
    have hint : ¬interacts all[i].2 all[j].2 = true :=
      fun hint => hno ⟨_, _, hgi, hgj, hside, hint⟩
    rw [interacts_iff_not_before hvi hvj, not_and_or, not_not, not_not] at hint
    exact hint.imp (fun h => ⟨_, _, hgi, hgj, h⟩) (fun h => ⟨_, _, hgj, hgi, h⟩)

theorem Tagged.separates (ht : Tagged b all) (hc : Classes all rep) :
    OrderedClasses.Separates (BeforeAt all) (Linked all) (· < all.length) rep where
  trans := by
    rintro i j k ⟨a, c, ha, hc, hac⟩ ⟨c', e, hc', he, hce⟩
    obtain rfl := Option.some.inj (hc.symm.trans hc')
    exact ⟨a, e, ha, he, hac.trans (ht.valid c (List.mem_of_getElem? hc)).1 hce⟩
  mem_of_link := fun hl => hl.lt
  not_lt_of_link := by
    rintro i j ⟨a, c, ha, hc, hne, hint⟩
    have hva := (ht.valid a (List.mem_of_getElem? ha)).1
    have hvc := (ht.valid c (List.mem_of_getElem? hc)).1
    obtain ⟨hac, hca⟩ := (interacts_iff_not_before hva hvc).mp hint
    constructor
    · rintro ⟨a', c', ha', hc', h⟩
      obtain rfl := Option.some.inj (ha.symm.trans ha')
      obtain rfl := Option.some.inj (hc.symm.trans hc')
      exact hac h
    · rintro ⟨c', a', hc', ha', h⟩
      obtain rfl := Option.some.inj (ha.symm.trans ha')
      obtain rfl := Option.some.inj (hc.symm.trans hc')
      exact hca h
  cls_of_link := hc.rep_eq
  connected := fun hi hj heq => hc.linked _ hi _ hj heq
  compared := by
    intro i j hi hj hne
    rcases Nat.lt_trichotomy i j with hlt | rfl | hgt
    · exact ht.compared hi hj hlt (fun hl => hne (hc.rep_eq hl))
    · exact absurd rfl hne
    · exact (ht.compared hj hi hgt (fun hl => hne (hc.rep_eq hl).symm)).symm

/-- The clusters split the hunks, each holds what chains of links join, and all of one lies before
all of the next. -/
structure Clustered (all : List (Side × Hunk)) (cs : List (List Nat)) : Prop where
  sublist : ∀ c ∈ cs, c.Sublist (List.range all.length)
  nonempty : ∀ c ∈ cs, c ≠ []
  perm : cs.flatten.Perm (List.range all.length)
  closed : ∀ c ∈ cs, ∀ {i j}, Linked all i j → i ∈ c → j ∈ c
  connected : ∀ c ∈ cs, ∀ i ∈ c, ∀ j ∈ c, EqvGen (Linked all) i j
  ordered : cs.Pairwise (fun c c' => ∀ i ∈ c, ∀ j ∈ c', BeforeAt all i j)

theorem mem_classOf {is : List Nat} {r i : Nat} : i ∈ classOf rep is r ↔ i ∈ is ∧ rep i = r := by
  rw [classOf, List.mem_filter, decide_eq_true_eq]

theorem Grouped.mem_values {is : List Nat} {groups : BTreeMap Nat (List Nat)}
    (h : Grouped rep is groups) {kv : Nat × List Nat} (hin : kv ∈ groups.toList) :
    kv.2 = classOf rep is kv.1 ∧ kv.2 ≠ [] := by
  obtain ⟨r, v⟩ := kv
  have hget := (BTreeMap.mem_toList_iff groups r v).mp hin
  rw [h r] at hget
  split_ifs at hget with hnil
  · obtain rfl := Option.some.inj hget
    exact ⟨rfl, hnil⟩

theorem mem_clusterHunks (all : List (Side × Hunk)) (c : List Nat) :
    c ∈ clusterHunks all ↔ ∃ r, (r, c) ∈ (groupsOf all).toList := by
  rw [clusterHunks_eq, List.mem_mergeSort, BTreeMap.values_eq_map_snd]
  simp

theorem min?_getD_le {xs : List Nat} {x : Nat} (hx : x ∈ xs) : xs.min?.getD 0 ≤ x := by
  rcases hm : xs.min? with _ | m
  · rw [List.min?_eq_none_iff.mp hm] at hx
    cases hx
  · exact (List.min?_eq_some_iff.mp hm).2 x hx

theorem min?_getD_mem {xs : List Nat} (hx : xs ≠ []) : xs.min?.getD 0 ∈ xs := by
  rcases hm : xs.min? with _ | m
  · exact absurd (List.min?_eq_none_iff.mp hm) hx
  · exact (List.min?_eq_some_iff.mp hm).1

theorem earliest_le {c : List Nat} {i : Nat} {a : Side × Hunk} (hi : i ∈ c)
    (ha : all[i]? = some a) : earliest all c ≤ a.2.baseStart :=
  min?_getD_le (List.mem_filterMap.mpr ⟨i, hi, by rw [ha]; rfl⟩)

theorem earliest_mem {c : List Nat} (hc : c ≠ []) (hlt : ∀ i ∈ c, i < all.length) :
    ∃ i ∈ c, ∃ a, all[i]? = some a ∧ earliest all c = a.2.baseStart := by
  obtain ⟨i, hi⟩ := List.exists_mem_of_ne_nil c hc
  have hne : c.filterMap (fun i => (all[i]?).map (·.2.baseStart)) ≠ [] := by
    have hget := List.getElem?_eq_getElem (hlt i hi)
    exact List.ne_nil_of_mem (List.mem_filterMap.mpr ⟨i, hi, by rw [hget]; rfl⟩)
  obtain ⟨j, hj, hget⟩ := List.mem_filterMap.mp (min?_getD_mem hne)
  obtain ⟨a, ha, hstart⟩ := Option.map_eq_some_iff.mp hget
  exact ⟨j, hj, a, ha, hstart.symm⟩

theorem clusterHunks_clustered (ht : Tagged b all) : Clustered all (clusterHunks all) := by
  obtain ⟨rep, hc, hg⟩ := groupsOf_spec all
  have hclass : ∀ c ∈ clusterHunks all, c ≠ [] ∧
      ∃ r, c = classOf rep (List.range all.length) r := by
    intro c hin
    obtain ⟨r, hr⟩ := (mem_clusterHunks all c).mp hin
    obtain ⟨heq, hne⟩ := hg.mem_values hr
    exact ⟨hne, r, heq⟩
  have hmem : ∀ c ∈ clusterHunks all, ∀ i ∈ c, i < all.length := by
    intro c hin i hi
    obtain ⟨-, r, rfl⟩ := hclass c hin
    exact List.mem_range.mp (mem_classOf.mp hi).1
  have hapart : (clusterHunks all).Pairwise (fun c c' => ∀ i ∈ c, ∀ j ∈ c', rep i ≠ rep j) := by
    rw [clusterHunks_eq]
    refine List.Perm.pairwise (List.mergeSort_perm _ _).symm ?_ (fun h i hi j hj => (h j hj i hi).symm)
    rw [BTreeMap.values_eq_map_snd, List.pairwise_map]
    refine List.Pairwise.imp_of_mem (fun {kv kv'} hkv hkv' hlt i hi j hj heq => ?_)
      (BTreeMap.toList_ascending (groupsOf all))
    rw [(hg.mem_values hkv).1, mem_classOf] at hi
    rw [(hg.mem_values hkv').1, mem_classOf] at hj
    rw [← hi.2, ← hj.2, heq] at hlt
    simp at hlt
  have hsorted : (clusterHunks all).Pairwise (fun c c' => earliest all c ≤ earliest all c') := by
    rw [clusterHunks_eq]
    refine (List.pairwise_mergeSort ?_ ?_ _).imp (fun h => of_decide_eq_true h)
    · intro c c' c'' h h'
      rw [decide_eq_true_eq] at h h' ⊢
      exact h.trans h'
    · intro c c'
      rw [Bool.or_eq_true, decide_eq_true_eq, decide_eq_true_eq]
      exact Nat.le_total _ _
  have hsep := ht.separates hc
  have hsame : ∀ {c : List Nat}, c ∈ clusterHunks all → ∀ {i j : Nat}, i ∈ c → j ∈ c →
      rep i = rep j := by
    intro c hin i j hi hj
    obtain ⟨-, r, rfl⟩ := hclass c hin
    exact (mem_classOf.mp hi).2.trans (mem_classOf.mp hj).2.symm
  refine ⟨fun c hin => ?_, fun c hin => (hclass c hin).1, ?_, ?_, ?_, ?_⟩
  · obtain ⟨-, r, rfl⟩ := hclass c hin
    exact List.filter_sublist
  · have hnodup : (clusterHunks all).flatten.Nodup := by
      rw [List.nodup_flatten]
      refine ⟨fun c hin => ?_, hapart.imp (fun h i hi hj => h i hi i hj rfl)⟩
      obtain ⟨-, r, rfl⟩ := hclass c hin
      exact List.nodup_range.filter _
    rw [List.perm_ext_iff_of_nodup hnodup List.nodup_range]
    intro i
    rw [List.mem_flatten, List.mem_range]
    refine ⟨fun ⟨c, hin, hi⟩ => hmem c hin i hi, fun hi => ?_⟩
    have hclass : i ∈ classOf rep (List.range all.length) (rep i) :=
      mem_classOf.mpr ⟨List.mem_range.mpr hi, rfl⟩
    refine ⟨_, (mem_clusterHunks all _).mpr ⟨rep i, ?_⟩, hclass⟩
    rw [BTreeMap.mem_toList_iff, hg (rep i), if_neg (List.ne_nil_of_mem hclass)]
  · intro c hin i j hl hi
    obtain ⟨-, r, rfl⟩ := hclass c hin
    exact mem_classOf.mpr ⟨List.mem_range.mpr hl.lt.2,
      (hc.rep_eq hl).symm.trans (mem_classOf.mp hi).2⟩
  · exact fun c hin i hi j hj => hsep.connected (hmem c hin i hi) (hmem c hin j hj)
      (hsame hin hi hj)
  · -- the hunk that starts first in the earlier cluster decides for both classes
    refine (hapart.and hsorted).imp_of_mem (fun {c c'} hin hin' ⟨hne, hle⟩ i hi j hj => ?_)
    obtain ⟨i₀, hi₀, a, ha, hstart⟩ := earliest_mem (hclass c hin).1 (hmem c hin)
    obtain ⟨j₀, hj₀, a', ha', hstart'⟩ := earliest_mem (hclass c' hin').1 (hmem c' hin')
    have hlt : BeforeAt all i₀ j₀ := by
      rcases hsep.compared (hmem c hin i₀ hi₀) (hmem c' hin' j₀ hj₀) (hne i₀ hi₀ j₀ hj₀)
        with hlt | ⟨e, e', he, he', hend, hstrict⟩
      · exact hlt
      · obtain rfl := Option.some.inj (ha'.symm.trans he)
        obtain rfl := Option.some.inj (ha.symm.trans he')
        have hv := (ht.valid a' (List.mem_of_getElem? ha')).1
        have hpos := hstrict (by omega)
        omega
    exact hsep.lt_of_lt (hmem c hin i₀ hi₀) (hmem c hin i hi) (hmem c' hin' j₀ hj₀)
      (hmem c' hin' j hj) (hsame hin hi₀ hi) (hsame hin' hj₀ hj) (hne i₀ hi₀ j₀ hj₀) hlt

end SrcControl.Diff3
