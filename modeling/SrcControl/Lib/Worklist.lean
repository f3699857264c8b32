import Mathlib.Data.Set.Insert
import Mathlib.Logic.Relation

/-!
# Worklist search

A search marks nodes and owes the links of those still pending. Marking a node
without links, queueing a new node and settling a node whose links are all marked
keep the debt exact; when nothing is pending the marked set is closed.
-/

namespace SrcControl.Worklist

variable {α : Type} {link : α → α → Prop}

/-- Every marked node outside `pending` has its links marked. -/
def ClosedBut (link : α → α → Prop) (pending seen : Set α) : Prop :=
  ∀ x ∈ seen, x ∈ pending ∨ ∀ y, link x y → y ∈ seen

abbrev Reach (link : α → α → Prop) : α → α → Prop := Relation.ReflTransGen link

namespace ClosedBut

variable {pending pending' seen seen' : Set α} {x : α}

theorem mono (h : ClosedBut link pending seen) (hp : pending ⊆ pending') :
    ClosedBut link pending' seen :=
  fun y hy => (h y hy).imp_left (fun hyp => hp hyp)

/-- Marking a node owes its links. -/
theorem insert_pending (h : ClosedBut link pending seen) :
    ClosedBut link (insert x pending) (insert x seen) := by
  rintro y (rfl | hy)
  · exact .inl (.inl rfl)
  · rcases h y hy with hp | hl
    · exact .inl (.inr hp)
    · exact .inr (fun z hz => .inr (hl z hz))

/-- A node without links owes nothing. -/
theorem insert_leaf (h : ClosedBut link pending seen) (hx : ∀ y, ¬ link x y) :
    ClosedBut link pending (insert x seen) := by
  rintro y (rfl | hy)
  · exact .inr (fun z hz => absurd hz (hx z))
  · exact (h y hy).imp_right (fun hl z hz => .inr (hl z hz))

/-- A node whose links are all marked is settled. -/
theorem settle (h : ClosedBut link pending seen) (hp : pending ⊆ insert x pending')
    (hx : ∀ y, link x y → y ∈ seen) : ClosedBut link pending' seen := by
  intro y hy
  rcases h y hy with hpy | hl
  · rcases hp hpy with rfl | hpy
    · exact .inr hx
    · exact .inl hpy
  · exact .inr hl

/-- With nothing pending, what a marked node reaches is marked. -/
theorem reach (h : ClosedBut link ∅ seen) {x y : α} (hx : x ∈ seen) (hr : Reach link x y) :
    y ∈ seen := by
  induction hr with
  | refl => exact hx
  | tail _ hl ih =>
    rcases h _ ih with hp | hs
    · exact hp.elim
    · exact hs _ hl

/-- What a marked node reaches is marked, or reached from a node still pending. -/
theorem reach_or (h : ClosedBut link pending seen) {x y : α} (hx : x ∈ seen)
    (hr : Reach link x y) : y ∈ seen ∨ ∃ p ∈ pending, Reach link p y := by
  induction hr with
  | refl => exact .inl hx
  | tail _ hl ih =>
    rcases ih with hseen | ⟨p, hp, hr⟩
    · rcases h _ hseen with hp | hs
      · exact .inr ⟨_, hp, .single hl⟩
      · exact .inl (hs _ hl)
    · exact .inr ⟨p, hp, hr.tail hl⟩

end ClosedBut

end SrcControl.Worklist
