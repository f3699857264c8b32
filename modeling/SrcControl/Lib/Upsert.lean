import Mathlib.Data.List.Basic
import Mathlib.Tactic.Common

/-!
# Rows updated in place

A list of rows looked up by a key: the first row of the key is updated, or a new row is
pushed behind the others. On rows with distinct keys this is a finite map.
-/

namespace SrcControl.Upsert

variable {α K : Type} [DecidableEq K] (key : α → K)

/-- `rows.iter().find(|a| a.key == k)`. -/
def lookup (k : K) (rows : List α) : Option α := rows.find? (fun a => key a = k)

/-- `match rows.iter_mut().find(|a| a.key == k) { Some(a) => update a, None => push new }`. -/
def upsert (k : K) (f : α → α) (new : α) : List α → List α
  | [] => [new]
  | a :: rest => if key a = k then f a :: rest else a :: upsert k f new rest

/-- `if let Some(a) = rows.iter_mut().find(p) { update a }`. -/
def modifyFirst (p : α → Bool) (f : α → α) : List α → List α
  | [] => []
  | a :: rest => if p a then f a :: rest else a :: modifyFirst p f rest

variable {key} {k k' : K} {f : α → α} {new a : α} {rows : List α}

theorem lookup_cons :
    lookup key k (a :: rows) = if key a = k then some a else lookup key k rows := by
  unfold lookup
  rw [List.find?_cons]
  by_cases h : key a = k <;> simp [h]

theorem lookup_append (rows rows' : List α) :
    lookup key k (rows ++ rows') = (lookup key k rows).or (lookup key k rows') := by
  unfold lookup
  rw [List.find?_append]

theorem lookup_mem (h : lookup key k rows = some a) : a ∈ rows ∧ key a = k :=
  ⟨List.mem_of_find?_eq_some h, by simpa using List.find?_some h⟩

theorem lookup_eq_none_iff : lookup key k rows = none ↔ k ∉ rows.map key := by
  simp [lookup, List.find?_eq_none]

/-- On distinct keys a lookup finds every row. -/
theorem lookup_of_mem (hn : (rows.map key).Nodup) (ha : a ∈ rows) :
    lookup key (key a) rows = some a := by
  induction rows with
  | nil => cases ha
  | cons b rows ih =>
    rw [List.map_cons, List.nodup_cons] at hn
    rw [lookup_cons]
    rcases List.mem_cons.mp ha with rfl | ha
    · rw [if_pos rfl]
    · rw [if_neg (fun h : key b = key a => hn.1 (h ▸ List.mem_map_of_mem ha)), ih hn.2 ha]

theorem lookup_eq_some_iff (hn : (rows.map key).Nodup) :
    lookup key k rows = some a ↔ a ∈ rows ∧ key a = k :=
  ⟨lookup_mem, fun ⟨ha, hk⟩ => hk ▸ lookup_of_mem hn ha⟩

/-- On distinct keys the order of the rows does not matter. -/
theorem lookup_perm {rows' : List α} (hn : (rows.map key).Nodup) (hp : rows.Perm rows') :
    lookup key k rows' = lookup key k rows := by
  have hn' : (rows'.map key).Nodup := (hp.map key).nodup_iff.mp hn
  refine Option.ext (fun a => ?_)
  rw [lookup_eq_some_iff hn, lookup_eq_some_iff hn', hp.mem_iff]

theorem lookup_map (hf : ∀ a, key (f a) = key a) :
    lookup key k (rows.map f) = (lookup key k rows).map f := by
  have hcomp : (fun a => decide (key a = k)) ∘ f = (fun a => decide (key a = k)) := by
    funext a
    simp [hf]
  rw [lookup, List.find?_map, hcomp]
  rfl

theorem lookup_upsert (hf : ∀ a, key (f a) = key a) (hnew : key new = k) :
    lookup key k' (upsert key k f new rows) =
      if k' = k then some (match lookup key k rows with | some a => f a | none => new)
      else lookup key k' rows := by
  induction rows with
  | nil =>
    rw [upsert, lookup_cons, hnew]
    by_cases h : k = k'
    · rw [if_pos h, if_pos h.symm]
      rfl
    · rw [if_neg h, if_neg (Ne.symm h)]
  | cons a rows ih =>
    rw [upsert, lookup_cons]
    by_cases ha : key a = k
    · rw [if_pos ha, if_pos ha, lookup_cons, lookup_cons, hf, ha]
      by_cases h : k = k'
      · rw [if_pos h, if_pos h.symm]
      · rw [if_neg h, if_neg (Ne.symm h), if_neg h]
    · rw [if_neg ha, if_neg ha, lookup_cons, lookup_cons, ih]
      by_cases h : k' = k
      · rw [if_pos h, if_pos h, if_neg (h ▸ ha)]
      · rw [if_neg h, if_neg h]

theorem mem_keys_upsert (hf : ∀ a, key (f a) = key a) (hnew : key new = k) :
    k' ∈ (upsert key k f new rows).map key ↔ k' = k ∨ k' ∈ rows.map key := by
  have h : lookup key k' (upsert key k f new rows) = _ := lookup_upsert hf hnew
  rw [← not_iff_not, ← lookup_eq_none_iff, h, not_or, ← lookup_eq_none_iff]
  split_ifs with hk <;> simp [hk]

theorem nodup_upsert (hf : ∀ a, key (f a) = key a) (hnew : key new = k)
    (hn : (rows.map key).Nodup) : ((upsert key k f new rows).map key).Nodup := by
  induction rows with
  | nil => simp [upsert]
  | cons a rows ih =>
    rw [List.map_cons, List.nodup_cons] at hn
    rw [upsert]
    by_cases ha : key a = k
    · rw [if_pos ha, List.map_cons, hf, List.nodup_cons]
      exact hn
    · rw [if_neg ha, List.map_cons, List.nodup_cons]
      refine ⟨fun hin => ?_, ih hn.2⟩
      rcases (mem_keys_upsert hf hnew).mp hin with h | h
      · exact ha h
      · exact hn.1 h

/-- Where the key is present, updating its first row is an upsert. -/
theorem modifyFirst_eq_upsert (h : lookup key k rows = some a) (new : α) :
    modifyFirst (fun a => key a = k) f rows = upsert key k f new rows := by
  induction rows with
  | nil => cases h
  | cons b rows ih =>
    rw [lookup_cons] at h
    rw [modifyFirst, upsert]
    by_cases hb : key b = k
    · simp [hb]
    · rw [if_neg hb] at h
      simp [hb, ih h]

omit [DecidableEq K] in
theorem map_key_modifyFirst (p : α → Bool) (hf : ∀ a, key (f a) = key a) (rows : List α) :
    (modifyFirst p f rows).map key = rows.map key := by
  induction rows with
  | nil => rfl
  | cons a rows ih =>
    rw [modifyFirst]
    split_ifs <;> simp [hf, ih]

/-- Every row is the old row of its key or, for the first row `p` holds of, its update. -/
theorem lookup_modifyFirst {p : α → Bool} (hf : ∀ a, key (f a) = key a)
    (hn : (rows.map key).Nodup) :
    lookup key k (modifyFirst p f rows) = (lookup key k rows).map
      (fun a => if (rows.find? p).map key = some k then f a else a) := by
  induction rows with
  | nil => rfl
  | cons a rows ih =>
    rw [List.map_cons, List.nodup_cons] at hn
    rw [modifyFirst, List.find?_cons]
    cases hp : p a with
    | true =>
      simp only [if_true, lookup_cons, hf, Option.map_some, Option.some.injEq]
      by_cases hk : key a = k
      · simp [hk]
      · simp [hk]
    | false =>
      simp only [Bool.false_eq_true, if_false, lookup_cons, ih hn.2]
      by_cases hk : key a = k
      · have hne : (rows.find? p).map key ≠ some k := by
          intro h
          obtain ⟨b, hb, hbk⟩ := Option.map_eq_some_iff.mp h
          exact hn.1 (hk ▸ hbk ▸ List.mem_map_of_mem (List.mem_of_find?_eq_some hb))
        simp [hk, hne]
      · simp [hk]

end SrcControl.Upsert
