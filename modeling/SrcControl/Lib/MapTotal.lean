import Mathlib.Algebra.BigOperators.Group.List.Basic
import SrcControl.Lib.OrderedMap

/-!
# Totals over a map

The sum of a weight over the rows of a map, and how an insertion and an erasure move it.
-/

namespace SrcControl.BTreeMap

variable {K V : Type} [Ord K] [Std.TransOrd K] [Std.LawfulEqOrd K] [DecidableEq K]

/-- `map.values().map(weight).sum()`. -/
def total (weight : V → Nat) (m : BTreeMap K V) : Nat := (m.toList.map (fun kv => weight kv.2)).sum

omit [DecidableEq K] in
theorem nodup_rows (m : BTreeMap K V) : m.toList.Nodup := by
  refine List.Pairwise.imp ?_ (toList_ascending m)
  rintro a b hab rfl
  simp at hab

theorem toList_insert_perm {m : BTreeMap K V} {k : K} {v : V} (h : m[k]? = none) :
    (m.insert k v).toList.Perm ((k, v) :: m.toList) := by
  have hnew : (k, v) ∉ m.toList := by
    rw [mem_toList_iff, h]
    simp
  rw [List.perm_ext_iff_of_nodup (nodup_rows _) (List.nodup_cons.mpr ⟨hnew, nodup_rows m⟩)]
  rintro ⟨a, b⟩
  rw [List.mem_cons, mem_toList_iff, mem_toList_iff, getElem?_insert, Prod.mk.injEq]
  by_cases hak : a = k
  · subst hak
    simp [h, eq_comm]
  · simp [hak, Ne.symm hak]

theorem toList_erase_perm {m : BTreeMap K V} {k : K} {v : V} (h : m[k]? = some v) :
    m.toList.Perm ((k, v) :: (m.erase k).toList) := by
  have hgone : (k, v) ∉ (m.erase k).toList := by
    rw [mem_toList_iff, getElem?_erase, if_pos rfl]
    simp
  rw [List.perm_ext_iff_of_nodup (nodup_rows _) (List.nodup_cons.mpr ⟨hgone, nodup_rows _⟩)]
  rintro ⟨a, b⟩
  rw [List.mem_cons, mem_toList_iff, mem_toList_iff, getElem?_erase, Prod.mk.injEq]
  by_cases hak : a = k
  · subst hak
    simp [h, eq_comm]
  · simp [hak, Ne.symm hak]

omit [Std.LawfulEqOrd K] [DecidableEq K] in
@[simp] theorem total_empty (weight : V → Nat) : total weight (∅ : BTreeMap K V) = 0 := rfl

theorem total_insert {weight : V → Nat} {m : BTreeMap K V} {k : K} {v : V} (h : m[k]? = none) :
    total weight (m.insert k v) = weight v + total weight m := by
  rw [total, ((toList_insert_perm h).map _).sum_eq]
  rfl

theorem total_erase {weight : V → Nat} {m : BTreeMap K V} {k : K} {v : V} (h : m[k]? = some v) :
    total weight m = weight v + total weight (m.erase k) := by
  rw [total, ((toList_erase_perm h).map _).sum_eq]
  rfl

theorem le_total {weight : V → Nat} {m : BTreeMap K V} {k : K} {v : V} (h : m[k]? = some v) :
    weight v ≤ total weight m := by
  rw [total_erase h]
  exact Nat.le_add_right _ _

/-- A row rewritten in place moves the total by the difference of its weights. -/
theorem total_replace {weight : V → Nat} {m : BTreeMap K V} {k : K} {v v' : V}
    (h : m[k]? = some v) :
    total weight (m.insert k v') + weight v = total weight m + weight v' := by
  have hback : (m.insert k v') = ((m.erase k).insert k v') := by
    refine Std.ExtTreeMap.ext_getElem? (fun a => ?_)
    rw [getElem?_insert, getElem?_insert, getElem?_erase]
    by_cases hak : k = a <;> simp [hak]
  have hnone : (m.erase k)[k]? = none := by rw [getElem?_erase, if_pos rfl]
  rw [hback, total_insert hnone, total_erase h]
  omega

omit [DecidableEq K] in
theorem total_mono {weight weight' : V → Nat} {m : BTreeMap K V}
    (h : ∀ (k : K) (v : V), m[k]? = some v → weight v ≤ weight' v) : total weight m ≤ total weight' m := by
  refine List.sum_le_sum ?_
  rintro ⟨k, v⟩ hkv
  exact h k v ((mem_toList_iff m k v).mp hkv)

omit [DecidableEq K] in
theorem total_congr {weight weight' : V → Nat} {m : BTreeMap K V}
    (h : ∀ (k : K) (v : V), m[k]? = some v → weight v = weight' v) : total weight m = total weight' m := by
  refine congrArg List.sum (List.map_congr_left ?_)
  rintro ⟨k, v⟩ hkv
  exact h k v ((mem_toList_iff m k v).mp hkv)

end SrcControl.BTreeMap
