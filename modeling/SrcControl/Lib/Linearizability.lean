import Mathlib.Data.List.Nodup
import Mathlib.Tactic.Common

/-!
# Linearizable histories

A history records when calls are made and when they return. It is linearized by a list of calls,
each with its result, that a sequential object gives one after the other, that holds every call
which returned, and that keeps two calls in order when one returned before the other was made.
A call that takes effect at one point between its invocation and its response can be appended
there, and what was linearized before stays so.
-/

namespace SrcControl.Linearizability

variable {σ Op Res : Type}

inductive Event (Op Res : Type)
  | invoke (id : Nat) (op : Op)
  | respond (id : Nat) (r : Res)
deriving DecidableEq, Repr

structure Entry (Op Res : Type) where
  id : Nat
  op : Op
  res : Res
deriving DecidableEq, Repr

/-- The object answers the calls in this order with these results. -/
def Legal (apply : σ → Op → σ × Res) : σ → List (Entry Op Res) → σ → Prop
  | s, [], s' => s = s'
  | s, e :: L, s' => (apply s e.op).2 = e.res ∧ Legal apply (apply s e.op).1 L s'

/-- Call `a` comes somewhere before call `b`. -/
def Precedes (L : List (Entry Op Res)) (a b : Nat) : Prop :=
  ∃ xs e ys, L = xs ++ e :: ys ∧ e.id = b ∧ ∃ x ∈ xs, x.id = a

structure Linearizes (apply : σ → Op → σ × Res) (s s' : σ) (H : List (Event Op Res))
    (L : List (Entry Op Res)) : Prop where
  legal : Legal apply s L s'
  nodup : (L.map (·.id)).Nodup
  invoked : ∀ e ∈ L, .invoke e.id e.op ∈ H
  completed : ∀ id r, .respond id r ∈ H → ∃ op, ⟨id, op, r⟩ ∈ L
  realtime : ∀ {H₁ H₂ : List (Event Op Res)} {a b : Nat} {r : Res} {op : Op},
    H = H₁ ++ .invoke b op :: H₂ → .respond a r ∈ H₁ → (∃ e ∈ L, e.id = b) → Precedes L a b

variable {apply : σ → Op → σ × Res} {s s' s'' : σ} {H : List (Event Op Res)}
  {L : List (Entry Op Res)} {id : Nat} {op : Op} {r : Res}

theorem Legal.snoc (h : Legal apply s L s') (happly : apply s' op = (s'', r)) :
    Legal apply s (L ++ [⟨id, op, r⟩]) s'' := by
  induction L generalizing s with
  | nil =>
    obtain rfl : s = s' := h
    have hres : (apply s op).2 = r := by rw [happly]
    have hnext : (apply s op).1 = s'' := by rw [happly]
    exact ⟨hres, hnext⟩
  | cons e L ih => exact ⟨h.1, ih h.2⟩

theorem Precedes.append {a b : Nat} (h : Precedes L a b) (L' : List (Entry Op Res)) :
    Precedes (L ++ L') a b := by
  obtain ⟨xs, e, ys, rfl, hid, hx⟩ := h
  exact ⟨xs, e, ys ++ L', by rw [List.append_assoc, List.cons_append], hid, hx⟩

/-- The first entry is not behind another one. -/
theorem Precedes.tail {x : Entry Op Res} {a b : Nat} (h : Precedes (x :: L) a b)
    (hnodup : ((x :: L).map (·.id)).Nodup) : x.id ≠ b ∧ (x.id = a ∨ Precedes L a b) := by
  obtain ⟨xs, e, ys, heq, hid, y, hy, hya⟩ := h
  cases xs with
  | nil => cases hy
  | cons z xs =>
    obtain ⟨rfl, rfl⟩ := List.cons.inj heq
    refine ⟨fun hx => ?_, ?_⟩
    · rw [List.map_cons, List.nodup_cons, hx, ← hid] at hnodup
      exact hnodup.1 (List.mem_map.mpr ⟨e, by simp, rfl⟩)
    · rcases List.mem_cons.mp hy with rfl | hy
      · exact .inl hya
      · exact .inr ⟨xs, e, ys, rfl, hid, y, hy, hya⟩

theorem linearizes_nil (apply : σ → Op → σ × Res) (s : σ) : Linearizes apply s s [] [] where
  legal := rfl
  nodup := List.nodup_nil
  invoked := fun _ he => absurd he List.not_mem_nil
  completed := fun _ _ he => absurd he List.not_mem_nil
  realtime := fun _ _ ⟨_, he, _⟩ => absurd he List.not_mem_nil

/-- A list with one more entry at the end, cut before an entry. -/
theorem snoc_eq_append_cons {α : Type} {xs H₁ H₂ : List α} {x y : α}
    (h : xs ++ [x] = H₁ ++ y :: H₂) :
    (H₂ = [] ∧ y = x ∧ H₁ = xs) ∨ ∃ H₃, H₂ = H₃ ++ [x] ∧ xs = H₁ ++ y :: H₃ := by
  rcases List.eq_nil_or_concat H₂ with rfl | ⟨H₃, z, rfl⟩
  · obtain ⟨hxs, hx⟩ := List.append_inj' h rfl
    exact .inl ⟨rfl, (List.singleton_inj.mp hx).symm, hxs.symm⟩
  · have hassoc : H₁ ++ y :: (H₃.concat z) = (H₁ ++ y :: H₃) ++ [z] := by simp
    rw [hassoc] at h
    obtain ⟨hxs, hx⟩ := List.append_inj' h rfl
    obtain rfl := List.singleton_inj.mp hx
    exact .inr ⟨H₃, List.concat_eq_append, hxs⟩

/-- A call that is made has not taken effect. -/
theorem Linearizes.invoke (h : Linearizes apply s s' H L) (hid : ∀ e ∈ L, e.id ≠ id) :
    Linearizes apply s s' (H ++ [.invoke id op]) L where
  legal := h.legal
  nodup := h.nodup
  invoked := fun e he => List.mem_append_left _ (h.invoked e he)
  completed := by
    intro a r hr
    rcases List.mem_append.mp hr with hr | hr
    · exact h.completed a r hr
    · cases List.mem_singleton.mp hr
  realtime := by
    intro H₁ H₂ a b r op' hH hr hb
    rcases snoc_eq_append_cons hH with ⟨-, heq, -⟩ | ⟨H₃, -, hH⟩
    · obtain ⟨e, he, heb⟩ := hb
      cases heq
      exact absurd heb (hid e he)
    · exact h.realtime hH hr hb

/-- A call takes effect: it goes behind every call that has returned. -/
theorem Linearizes.commit (h : Linearizes apply s s' H L) (hinv : .invoke id op ∈ H)
    (hid : ∀ e ∈ L, e.id ≠ id) (happly : apply s' op = (s'', r)) :
    Linearizes apply s s'' H (L ++ [⟨id, op, r⟩]) where
  legal := h.legal.snoc happly
  nodup := by
    rw [List.map_append, List.map_singleton]
    refine List.Nodup.append h.nodup (List.nodup_singleton _) (fun a ha ha' => ?_)
    obtain ⟨e, he, rfl⟩ := List.mem_map.mp ha
    exact hid e he (List.mem_singleton.mp ha')
  invoked := by
    intro e he
    rcases List.mem_append.mp he with he | he
    · exact h.invoked e he
    · cases List.mem_singleton.mp he
      exact hinv
  completed := by
    intro a r hr
    obtain ⟨op', hin⟩ := h.completed a r hr
    exact ⟨op', List.mem_append_left _ hin⟩
  realtime := by
    intro H₁ H₂ a b r' op' hH hr ⟨e, he, heb⟩
    rcases List.mem_append.mp he with he | he
    · exact (h.realtime hH hr ⟨e, he, heb⟩).append _
    · cases List.mem_singleton.mp he
      obtain ⟨opa, hin⟩ := h.completed a r' (hH ▸ List.mem_append_left _ hr)
      exact ⟨L, _, [], rfl, heb, _, hin, rfl⟩

theorem Linearizes.respond (h : Linearizes apply s s' H L) (hin : ⟨id, op, r⟩ ∈ L) :
    Linearizes apply s s' (H ++ [.respond id r]) L where
  legal := h.legal
  nodup := h.nodup
  invoked := fun e he => List.mem_append_left _ (h.invoked e he)
  completed := by
    intro a r' hr
    rcases List.mem_append.mp hr with hr | hr
    · exact h.completed a r' hr
    · cases List.mem_singleton.mp hr
      exact ⟨op, hin⟩
  realtime := by
    intro H₁ H₂ a b r' op' hH hr hb
    rcases snoc_eq_append_cons hH with ⟨-, heq, -⟩ | ⟨H₃, -, hH⟩
    · cases heq
    · exact h.realtime hH hr hb

end SrcControl.Linearizability
