import Mathlib

/-!
# Ordered maps and sets

Finite maps and sets iterated in key order. They are the extensional search
trees of the standard library at the `compare` order; the lemmas below restate
lookup after an insertion with equality of keys in place of `compare`.
-/

namespace SrcControl

abbrev BTreeMap (K V : Type) [Ord K] := Std.ExtTreeMap K V compare
abbrev BTreeSet (K : Type) [Ord K] := Std.ExtTreeSet K compare

/-- `sort_by_key` leaves the keys ascending. -/
theorem pairwise_mergeSort_key {α K : Type} [Ord K] [Std.TransOrd K] (key : α → K) (xs : List α) :
    (xs.mergeSort (fun a b => (compare (key a) (key b)).isLE)).Pairwise
      (fun a b => (compare (key a) (key b)).isLE = true) := by
  refine @List.pairwise_mergeSort α (fun a b => (compare (key a) (key b)).isLE) ?_ ?_ xs
  · exact fun _ _ _ h₁ h₂ => Std.TransOrd.isLE_trans h₁ h₂
  · intro a b
    have hs := Std.OrientedOrd.eq_swap (a := key b) (b := key a)
    cases hc : compare (key a) (key b) <;> simp_all

namespace BTreeMap

variable {K V : Type} [Ord K] [Std.TransOrd K] [Std.LawfulEqOrd K]

theorem getElem?_insert [DecidableEq K] (m : BTreeMap K V) (k a : K) (v : V) :
    (m.insert k v)[a]? = if k = a then some v else m[a]? := by
  rw [Std.ExtTreeMap.getElem?_insert]
  simp only [Std.LawfulEqOrd.compare_eq_iff_eq]

theorem getElem?_erase [DecidableEq K] (m : BTreeMap K V) (k a : K) :
    (m.erase k)[a]? = if k = a then none else m[a]? := by
  rw [Std.ExtTreeMap.getElem?_erase]
  simp only [Std.LawfulEqOrd.compare_eq_iff_eq]

theorem mem_toList_iff (m : BTreeMap K V) (k : K) (v : V) :
    (k, v) ∈ m.toList ↔ m[k]? = some v :=
  Std.ExtTreeMap.mem_toList_iff_getElem?_eq_some

theorem mem_keys_iff (m : BTreeMap K V) (k : K) : k ∈ m.keys ↔ ∃ v, m[k]? = some v := by
  rw [Std.ExtTreeMap.mem_keys, Std.ExtTreeMap.mem_iff_isSome_getElem?, Option.isSome_iff_exists]

open Std.DTreeMap.Internal in
omit [Std.LawfulEqOrd K] in
theorem values_eq_map_snd (m : BTreeMap K V) : m.values = m.toList.map Prod.snd := by
  obtain ⟨⟨q⟩⟩ := m
  induction q using Quotient.inductionOn with
  | _ t =>
    change t.inner.values = (Impl.Const.toList t.inner).map Prod.snd
    rw [Impl.values_eq_map_snd, Impl.Const.toList_eq_toListModel_map, List.map_map]
    rfl

/-- Insertion of the pairs in turn, a later one replacing an earlier one of its key. -/
def ofList {K V : Type} [Ord K] (kvs : List (K × V)) : BTreeMap K V :=
  Std.ExtTreeMap.ofList kvs compare

/-- Strictly ascending keys. -/
abbrev Ascending {K V : Type} [Ord K] (kvs : List (K × V)) : Prop :=
  kvs.Pairwise (fun a b => compare a.1 b.1 = .lt)

omit [Std.LawfulEqOrd K] in
theorem toList_ascending (m : BTreeMap K V) : Ascending m.toList :=
  Std.ExtTreeMap.ordered_keys_toList

/-- A map built from a list holds pairs of the list only. -/
theorem mem_of_mem_ofList [DecidableEq K] {kvs : List (K × V)} {kv : K × V}
    (h : kv ∈ (ofList kvs).toList) : kv ∈ kvs := by
  rw [ofList, Std.ExtTreeMap.ofList_eq_foldl] at h
  have hfold : ∀ (m : BTreeMap K V), kv ∈ (kvs.foldl (fun m x => m.insert x.1 x.2) m).toList →
      kv ∈ m.toList ∨ kv ∈ kvs := by
    clear h
    induction kvs with
    | nil => exact fun m hm => .inl hm
    | cons x kvs ih =>
      intro m hm
      rcases ih (m.insert x.1 x.2) hm with hin | hin
      · obtain ⟨k, v⟩ := kv
        rw [mem_toList_iff, getElem?_insert] at hin
        split_ifs at hin with hk
        · cases hin
          subst hk
          exact .inr (by simp)
        · exact .inl ((mem_toList_iff m k v).mpr hin)
      · exact .inr (List.mem_cons_of_mem x hin)
  rcases hfold ∅ h with hin | hin
  · obtain ⟨k, v⟩ := kv
    rw [mem_toList_iff] at hin
    cases hin
  · exact hin

omit [Std.LawfulEqOrd K] in
theorem length_toList_ofList_le [DecidableEq K] (kvs : List (K × V)) :
    (ofList kvs).toList.length ≤ kvs.length := by
  rw [Std.ExtTreeMap.length_toList]
  exact Std.ExtTreeMap.size_ofList_le

/-- A strictly ascending list is the iteration of the map it builds. -/
theorem toList_ofList [DecidableEq K] {kvs : List (K × V)} (h : Ascending kvs) :
    (ofList kvs).toList = kvs := by
  have hirr : ∀ {l : List (K × V)}, Ascending l → l.Nodup := by
    intro l hl
    refine hl.imp ?_
    intro a b hab he
    rw [he, Std.ReflOrd.compare_self] at hab
    cases hab
  have hdistinct : kvs.Pairwise (fun a b => ¬ compare a.1 b.1 = .eq) :=
    h.imp (fun hab => by simp [hab])
  have hmem : ∀ a, a ∈ (ofList kvs).toList ↔ a ∈ kvs := by
    intro a
    obtain ⟨k, v⟩ := a
    rw [mem_toList_iff]
    constructor
    · intro hk
      have hin : (ofList kvs).contains k = true := by
        rw [Std.ExtTreeMap.contains_eq_isSome_getElem?, hk]
        rfl
      rw [ofList, Std.ExtTreeMap.contains_ofList, List.contains_iff_mem, List.mem_map] at hin
      obtain ⟨⟨k', v'⟩, hin, hkk⟩ := hin
      simp only at hkk
      subst hkk
      have hv : (ofList kvs)[k']? = some v' :=
        Std.ExtTreeMap.getElem?_ofList_of_mem Std.ReflOrd.compare_self hdistinct hin
      rw [hv] at hk
      cases hk
      exact hin
    · intro hin
      exact Std.ExtTreeMap.getElem?_ofList_of_mem Std.ReflOrd.compare_self hdistinct hin
  have hperm : (ofList kvs).toList.Perm kvs :=
    (List.perm_ext_iff_of_nodup (hirr (toList_ascending _)) (hirr h)).mpr hmem
  refine hperm.eq_of_pairwise ?_ (toList_ascending _) h
  intro a b _ _ hab hba
  rw [Std.OrientedOrd.eq_swap, hba] at hab
  cases hab

theorem ofList_toList [DecidableEq K] (m : BTreeMap K V) : ofList m.toList = m :=
  Std.ExtTreeMap.toList_inj.mp (toList_ofList (toList_ascending m))

end BTreeMap

namespace BTreeSet

variable {K : Type} [Ord K]

/-- Rust's `collect::<BTreeSet<_>>()`. -/
def ofList (ks : List K) : BTreeSet K := Std.ExtTreeSet.ofList ks compare

variable [Std.TransOrd K] [Std.LawfulEqOrd K]

theorem mem_insert (s : BTreeSet K) (a k : K) : k ∈ s.insert a ↔ k = a ∨ k ∈ s := by
  rw [Std.ExtTreeSet.mem_insert, Std.LawfulEqOrd.compare_eq_iff_eq, eq_comm]

theorem mem_ofList [DecidableEq K] (ks : List K) (k : K) : k ∈ ofList ks ↔ k ∈ ks := by
  simp [ofList, Std.ExtTreeSet.mem_ofList]

theorem nodup_toList (s : BTreeSet K) : s.toList.Nodup := by
  refine (Std.ExtTreeSet.distinct_toList (t := s)).imp ?_
  intro a b h he
  exact h (by rw [he]; exact Std.ReflOrd.compare_self)

theorem mem_toList_ofList [DecidableEq K] (ks : List K) (k : K) :
    k ∈ (ofList ks).toList ↔ k ∈ ks := by
  rw [Std.ExtTreeSet.mem_toList, mem_ofList]

end BTreeSet

end SrcControl
