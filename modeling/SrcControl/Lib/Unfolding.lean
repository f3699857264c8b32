import Mathlib

/-!
# Unfolding an acyclic graph

The number of nodes of the tree that an acyclic graph unfolds to below a node. A search
that forgets the node it pops and remembers at most its children spends it.
-/

namespace SrcControl.Unfolding

variable {α : Type}

section Weight

variable {children : α → List α}

noncomputable def weight (h : WellFounded (fun b a => b ∈ children a)) (a : α) : Nat :=
  1 + ((children a).attach.map (fun b => weight h b.1)).sum
termination_by h.wrap a
decreasing_by exact b.2

theorem weight_eq (h : WellFounded (fun b a => b ∈ children a)) (a : α) :
    weight h a = 1 + ((children a).map (weight h)).sum := by
  rw [weight]
  rw [List.attach_map_val]

theorem weight_pos (h : WellFounded (fun b a => b ∈ children a)) (a : α) : 0 < weight h a := by
  rw [weight_eq]
  omega

theorem weight_lt {h : WellFounded (fun b a => b ∈ children a)} {a b : α} (hb : b ∈ children a) :
    weight h b < weight h a := by
  have hle := List.single_le_sum (l := (children a).map (weight h)) (by simp) (weight h b)
    (List.mem_map_of_mem hb)
  rw [weight_eq h a]
  omega

end Weight

/-- An acyclic relation out of a finite set of nodes is well founded. -/
theorem wellFounded_of_acyclic {link : α → α → Prop} {S : Set α} (hS : S.Finite)
    (hsource : ∀ a b, link a b → a ∈ S) (h : ∀ a, ¬ Relation.TransGen link a a) :
    WellFounded (fun b a => link a b) := by
  have := hS.to_subtype
  let below : S → S → Prop := fun b a => Relation.TransGen link a.1 b.1
  have : IsTrans S below := ⟨fun _ _ _ hab hbc => hbc.trans hab⟩
  have : Std.Irrefl below := ⟨fun a => h a.1⟩
  have hwf : WellFounded below := Finite.wellFounded_of_trans_of_irrefl below
  have hacc : ∀ a : S, Acc (fun b a => link a b) a.1 := by
    intro a
    induction a using hwf.induction with
    | h a ih =>
      refine ⟨_, fun b hb => ?_⟩
      by_cases hmem : b ∈ S
      · exact ih ⟨b, hmem⟩ (.single hb)
      · exact ⟨_, fun c hc => absurd (hsource b c hc) hmem⟩
  refine ⟨fun a => ?_⟩
  by_cases hmem : a ∈ S
  · exact hacc ⟨a, hmem⟩
  · exact ⟨_, fun b hb => absurd (hsource a b hb) hmem⟩

end SrcControl.Unfolding
