import Mathlib.Data.List.Basic
import Mathlib.Data.List.Nodup
import Mathlib.Data.List.Perm.Subperm
import Mathlib.Tactic.Common

/-!
# Disjoint sets

A forest of parent links held in a list, a link to itself marking a root. Following the links
from any node reaches its root in fewer steps than there are nodes; redirecting a node to its
own root changes no representative, and linking one root below another merges two sets.
-/

namespace SrcControl.DisjointSets

/-- From `x` the links lead to the root `r` in `d` steps. -/
inductive Leads (p : List Nat) : Nat → Nat → Nat → Prop
  | root {r : Nat} (h : p.getD r r = r) : Leads p r r 0
  | step {x r d : Nat} (hx : p.getD x x ≠ x) (h : Leads p (p.getD x x) r d) : Leads p x r (d + 1)

variable {p : List Nat} {n x y r s c d k : Nat}

theorem Leads.isRoot (h : Leads p x r d) : p.getD r r = r := by
  induction h with
  | root h => exact h
  | step _ _ ih => exact ih

theorem Leads.unique (h : Leads p x r d) (h' : Leads p x s k) : r = s ∧ d = k := by
  induction h generalizing k with
  | root h =>
    cases h' with
    | root _ => exact ⟨rfl, rfl⟩
    | step hx _ => exact absurd h hx
  | step hx _ ih =>
    cases h' with
    | root h => exact absurd h hx
    | step _ h' =>
      obtain ⟨rfl, rfl⟩ := ih h'
      exact ⟨rfl, rfl⟩

theorem Leads.next (h : Leads p x r d) (hne : x ≠ r) : ∃ e, Leads p (p.getD x x) r e := by
  cases h with
  | root _ => exact absurd rfl hne
  | step _ h => exact ⟨_, h⟩

/-- The nodes passed on the way to the root: as many as steps and one, all different. -/
theorem Leads.path (hp : ∀ x < n, p.getD x x < n) (h : Leads p x r d) (hx : x < n) :
    ∃ l : List Nat, l.length = d + 1 ∧ l.Nodup ∧ ∀ y ∈ l, y < n ∧ ∃ k ≤ d, Leads p y r k := by
  induction h with
  | @root z h =>
    refine ⟨[z], rfl, List.nodup_singleton z, fun y hy => ?_⟩
    obtain rfl := List.mem_singleton.mp hy
    exact ⟨hx, 0, Nat.le_refl 0, .root h⟩
  | @step z s e hne h ih =>
    obtain ⟨l, hlen, hnodup, hall⟩ := ih (hp _ hx)
    refine ⟨z :: l, by rw [List.length_cons, hlen], List.nodup_cons.mpr ⟨fun hin => ?_, hnodup⟩, ?_⟩
    · obtain ⟨-, k, hk, hlead⟩ := hall _ hin
      have hsteps := ((Leads.step hne h).unique hlead).2
      omega
    · intro y hy
      rcases List.mem_cons.mp hy with rfl | hy
      · exact ⟨hx, _, Nat.le_refl _, .step hne h⟩
      · obtain ⟨hlt, k, hk, hlead⟩ := hall y hy
        exact ⟨hlt, k, by omega, hlead⟩

theorem Leads.lt (hp : ∀ x < n, p.getD x x < n) (h : Leads p x r d) (hx : x < n) : d < n := by
  obtain ⟨l, hlen, hnodup, hall⟩ := h.path hp hx
  have hsub : l ⊆ List.range n := fun y hy => List.mem_range.mpr (hall y hy).1
  have hle := (List.subperm_of_subset hnodup hsub).length_le
  rw [hlen, List.length_range] at hle
  exact hle

theorem getD_set (hc : c < p.length) (v : Nat) (y : Nat) :
    (p.set c v).getD y y = if y = c then v else p.getD y y := by
  simp only [List.getD_eq_getElem?_getD, List.getElem?_set]
  by_cases h : y = c
  · subst h
    simp [hc]
  · simp [h, Ne.symm h]

/-- Redirecting a node to its own root moves no representative. -/
theorem Leads.redirect (hc : c < p.length) (hlead : Leads p c r k) (hne : c ≠ r)
    (h : Leads p y s d) : ∃ d', Leads (p.set c r) y s d' := by
  have hroot : ∀ z, p.getD z z = z → (p.set c r).getD z z = z := by
    intro z hz
    rw [getD_set hc]
    split_ifs with hzc
    · subst hzc
      exact (hlead.unique (.root hz)).1
    · exact hz
  induction h with
  | root h => exact ⟨0, .root (hroot _ h)⟩
  | @step z s e hz hrest ih =>
    obtain ⟨d', hd'⟩ := ih
    by_cases hzc : z = c
    · subst hzc
      obtain rfl := (hlead.unique (.step hz hrest)).1
      have hset : (p.set z r).getD z z = r := by rw [getD_set hc, if_pos rfl]
      refine ⟨1, .step (by rw [hset]; exact Ne.symm hne) ?_⟩
      rw [hset]
      exact .root (hroot _ hlead.isRoot)
    · have hset : (p.set c r).getD z z = p.getD z z := by rw [getD_set hc, if_neg hzc]
      exact ⟨d' + 1, .step (by rw [hset]; exact hz) (by rw [hset]; exact hd')⟩

/-- Linking the root `c` below the root `r` gives its nodes the representative `r`. -/
theorem Leads.link (hc : c < p.length) (hroot : p.getD c c = c) (hr : p.getD r r = r) (hne : c ≠ r)
    (h : Leads p y s d) : ∃ d', Leads (p.set c r) y (if s = c then r else s) d' := by
  have hset : ∀ z, z ≠ c → (p.set c r).getD z z = p.getD z z :=
    fun z hz => by rw [getD_set hc, if_neg hz]
  induction h with
  | @root s h =>
    by_cases hs : s = c
    · subst hs
      have hself : (p.set s r).getD s s = r := by rw [getD_set hc, if_pos rfl]
      rw [if_pos rfl]
      refine ⟨1, .step (by rw [hself]; exact Ne.symm hne) ?_⟩
      rw [hself]
      exact .root (by rw [hset r (Ne.symm hne)]; exact hr)
    · rw [if_neg hs]
      exact ⟨0, .root (by rw [hset s hs]; exact h)⟩
  | @step z s e hz _ ih =>
    obtain ⟨d', hd'⟩ := ih
    have hzc : z ≠ c := by
      rintro rfl
      exact hz hroot
    exact ⟨d' + 1, .step (by rw [hset z hzc]; exact hz) (by rw [hset z hzc]; exact hd')⟩

/-- The links over `n` nodes give each its representative. -/
structure Represents (n : Nat) (p : List Nat) (rep : Nat → Nat) : Prop where
  length : p.length = n
  lt : ∀ x < n, p.getD x x < n
  leads : ∀ x < n, ∃ d, Leads p x (rep x) d

variable {rep : Nat → Nat}

theorem represents_range (n : Nat) : Represents n (List.range n) id := by
  have hget : ∀ x, (List.range n).getD x x = x := by
    intro x
    rw [List.getD_eq_getElem?_getD]
    by_cases hx : x < n
    · rw [List.getElem?_range hx]
      rfl
    · rw [List.getElem?_eq_none (by simpa using hx)]
      rfl
  exact ⟨List.length_range, fun x hx => (hget x).symm ▸ hx, fun x _ => ⟨0, .root (hget x)⟩⟩

theorem Leads.root_lt (hp : ∀ x < n, p.getD x x < n) (h : Leads p x r d) (hx : x < n) :
    r < n := by
  induction h with
  | root _ => exact hx
  | step _ _ ih => exact ih (hp _ hx)

theorem Represents.rep_lt (h : Represents n p rep) (hx : x < n) : rep x < n := by
  obtain ⟨d, hd⟩ := h.leads x hx
  exact hd.root_lt h.lt hx

theorem Represents.redirect (h : Represents n p rep) (hc : c < n) (hne : c ≠ rep c) :
    Represents n (p.set c (rep c)) rep := by
  have hlen : c < p.length := h.length ▸ hc
  obtain ⟨k, hk⟩ := h.leads c hc
  refine ⟨by rw [List.length_set, h.length], fun x hx => ?_, fun x hx => ?_⟩
  · rw [getD_set hlen]
    split_ifs
    · exact h.rep_lt hc
    · exact h.lt x hx
  · obtain ⟨d, hd⟩ := h.leads x hx
    exact hk.redirect hlen hne hd

theorem Represents.link (h : Represents n p rep) (hx : x < n) (hy : y < n)
    (hne : rep x ≠ rep y) : Represents n (p.set (rep x) (rep y))
      (fun z => if rep z = rep x then rep y else rep z) := by
  have hlen : rep x < p.length := h.length ▸ h.rep_lt hx
  obtain ⟨k, hk⟩ := h.leads x hx
  obtain ⟨l, hl⟩ := h.leads y hy
  refine ⟨by rw [List.length_set, h.length], fun z hz => ?_, fun z hz => ?_⟩
  · rw [getD_set hlen]
    split_ifs
    · exact h.rep_lt hy
    · exact h.lt z hz
  · obtain ⟨d, hd⟩ := h.leads z hz
    exact hd.link hlen hk.isRoot hl.isRoot hne

end SrcControl.DisjointSets
