import Mathlib.Logic.Relation
import Mathlib.Tactic.Common

/-!
# Classes that an order keeps apart

Links join elements that the order does not compare. Where elements of different classes are
always compared and a class is connected by links, one class lies below another as a whole as
soon as one element of it lies below one of the other. Two lists in order whose entries have
partners in each other are matched entry by entry.
-/

namespace SrcControl.OrderedClasses

open Relation

variable {α β : Type} {lt link : α → α → Prop} {mem : α → Prop} {cls : α → β}

structure Separates (lt link : α → α → Prop) (mem : α → Prop) (cls : α → β) : Prop where
  trans : ∀ {a b c}, lt a b → lt b c → lt a c
  mem_of_link : ∀ {a b}, link a b → mem a ∧ mem b
  not_lt_of_link : ∀ {a b}, link a b → ¬lt a b ∧ ¬lt b a
  cls_of_link : ∀ {a b}, link a b → cls a = cls b
  connected : ∀ {a b}, mem a → mem b → cls a = cls b → EqvGen link a b
  compared : ∀ {a b}, mem a → mem b → cls a ≠ cls b → lt a b ∨ lt b a

variable {x x' y y' : α}

theorem Separates.cls_of_eqvGen (h : Separates lt link mem cls) (hy : EqvGen link y y') :
    cls y = cls y' := by
  induction hy with
  | rel y y' hlink => exact h.cls_of_link hlink
  | refl y => rfl
  | symm y y' _ ih => exact ih.symm
  | trans y z y' _ _ ih ih' => exact ih.trans ih'

/-- An element of another class lies on one side of all that links join. -/
theorem Separates.lt_iff_right (h : Separates lt link mem cls) (hx : mem x)
    (hy : EqvGen link y y') (hne : cls x ≠ cls y) :
    (lt x y ↔ lt x y') ∧ (lt y x ↔ lt y' x) := by
  induction hy with
  | rel y y' hlink =>
    obtain ⟨hmem, hmem'⟩ := h.mem_of_link hlink
    obtain ⟨hyy', hy'y⟩ := h.not_lt_of_link hlink
    have hcmp := h.compared hx hmem hne
    have hcmp' := h.compared hx hmem' (h.cls_of_link hlink ▸ hne)
    refine ⟨⟨fun hlt => ?_, fun hlt => ?_⟩, fun hlt => ?_, fun hlt => ?_⟩
    · exact hcmp'.resolve_right (fun hgt => hy'y (h.trans hgt hlt))
    · exact hcmp.resolve_right (fun hgt => hyy' (h.trans hgt hlt))
    · exact hcmp'.resolve_left (fun hgt => hyy' (h.trans hlt hgt))
    · exact hcmp.resolve_left (fun hgt => hy'y (h.trans hlt hgt))
  | refl y => exact ⟨Iff.rfl, Iff.rfl⟩
  | symm y y' hy ih =>
    obtain ⟨hlt, hgt⟩ := ih (h.cls_of_eqvGen hy ▸ hne)
    exact ⟨hlt.symm, hgt.symm⟩
  | trans y z y' hy _ ih ih' =>
    obtain ⟨hlt, hgt⟩ := ih hne
    obtain ⟨hlt', hgt'⟩ := ih' (h.cls_of_eqvGen hy ▸ hne)
    exact ⟨hlt.trans hlt', hgt.trans hgt'⟩

/-- One element below one of another class puts the whole class below. -/
theorem Separates.lt_of_lt (h : Separates lt link mem cls) (hx : mem x) (hx' : mem x')
    (hy : mem y) (hy' : mem y') (hxx : cls x = cls x') (hyy : cls y = cls y')
    (hne : cls x ≠ cls y) (hlt : lt x y) : lt x' y' := by
  have hxy' : lt x y' := (h.lt_iff_right hx (h.connected hy hy' hyy) hne).1.mp hlt
  exact (h.lt_iff_right hy' (h.connected hx hx' hxx) (hyy ▸ hne.symm)).2.mp hxy'

/-! ## Two lists in order -/

variable {lt' : β → β → Prop} {R : α → β → Prop} {xs : List α} {ys : List β}

/-- Partners under `R` are distinct for distinct entries and stand in the same order. -/
structure Matches (lt : α → α → Prop) (lt' : β → β → Prop) (R : α → β → Prop) : Prop where
  forth : ∀ {x x' y y'}, R x y → R x' y' → lt x x' → y ≠ y' ∧ ¬lt' y' y
  back : ∀ {x x' y y'}, R x y → R x' y' → lt' y y' → x ≠ x'

/-- Lists in order whose entries all have partners are matched entry by entry. -/
theorem Matches.forall₂ (h : Matches lt lt' R) (hx : xs.Pairwise lt) (hy : ys.Pairwise lt')
    (hforth : ∀ x ∈ xs, ∃ y ∈ ys, R x y) (hback : ∀ y ∈ ys, ∃ x ∈ xs, R x y) :
    List.Forall₂ R xs ys := by
  induction xs generalizing ys with
  | nil =>
    cases ys with
    | nil => exact .nil
    | cons y ys =>
      obtain ⟨x, hin, -⟩ := hback y List.mem_cons_self
      cases hin
  | cons x xs ih =>
    obtain ⟨hfirst, hxs⟩ := List.pairwise_cons.mp hx
    obtain ⟨z, hz, hxz⟩ := hforth x List.mem_cons_self
    cases ys with
    | nil => cases hz
    | cons y ys =>
      obtain ⟨hfirst', hys⟩ := List.pairwise_cons.mp hy
      have hxy : R x y := by
        rcases List.mem_cons.mp hz with rfl | hz
        · exact hxz
        · obtain ⟨w, hw, hwy⟩ := hback y List.mem_cons_self
          rcases List.mem_cons.mp hw with rfl | hw
          · exact hwy
          · exact absurd (hfirst' z hz) (h.forth hxz hwy (hfirst w hw)).2
      refine .cons hxy (ih hxs hys (fun x' hx' => ?_) (fun y' hy' => ?_))
      · obtain ⟨y', hin, hR⟩ := hforth x' (List.mem_cons_of_mem x hx')
        rcases List.mem_cons.mp hin with rfl | hin
        · exact absurd rfl (h.forth hxy hR (hfirst x' hx')).1
        · exact ⟨y', hin, hR⟩
      · obtain ⟨x', hin, hR⟩ := hback y' (List.mem_cons_of_mem y hy')
        rcases List.mem_cons.mp hin with rfl | hin
        · exact absurd rfl (h.back hxy hR (hfirst' y' hy'))
        · exact ⟨x', hin, hR⟩

end SrcControl.OrderedClasses
