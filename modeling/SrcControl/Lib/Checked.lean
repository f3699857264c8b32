import SrcControl.Lib.TextReader

/-!
# Computations that may fault

Besides an error of its own, a computation on machine words and buffers can end in a fault: a sum
that leaves the 64-bit word, or a slice outside its buffer. `Returns` says that it does not, and
`Sound` that a reader does not on any cursor inside its buffer.
-/

namespace SrcControl.Checked

open ByteReader (Reader Cursor Parses)

variable {ε α β : Type}

inductive Stop (ε : Type)
  | error (e : ε)
  | overflow
  | outOfRange
deriving DecidableEq, Repr

/-- `a + b` on 64-bit words. -/
def add64 (a b : Nat) : Except (Stop ε) Nat :=
  if a + b < 2 ^ 64 then .ok (a + b) else .error .overflow

/-- `a - b` on 64-bit words. -/
def sub64 (a b : Nat) : Except (Stop ε) Nat := if b ≤ a then .ok (a - b) else .error .overflow

/-- `&bs[i..j]`. -/
def slice (bs : List UInt8) (i j : Nat) : Except (Stop ε) (List UInt8) :=
  if i ≤ j ∧ j ≤ bs.length then .ok ((bs.drop i).take (j - i)) else .error .outOfRange

/-- The computation ends with a value or an error of its own. -/
def Returns (x : Except (Stop ε) α) : Prop := ∀ st, x = .error st → ∃ e, st = .error e

namespace Returns

theorem ok (a : α) : Returns (.ok a : Except (Stop ε) α) := by
  intro st h
  cases h

theorem error (e : ε) : Returns (.error (.error e) : Except (Stop ε) α) := by
  intro st h
  cases h
  exact ⟨e, rfl⟩

theorem bind {x : Except (Stop ε) α} {f : α → Except (Stop ε) β} (hx : Returns x)
    (hf : ∀ a, x = .ok a → Returns (f a)) : Returns (x >>= f) := by
  intro st h
  cases hxa : x with
  | error st' =>
    obtain ⟨e, rfl⟩ := hx st' hxa
    rw [hxa] at h
    cases h
    exact ⟨e, rfl⟩
  | ok a =>
    rw [hxa] at h
    exact hf a hxa st h

theorem add64 {a b : Nat} (h : a + b < 2 ^ 64) :
    (Checked.add64 a b : Except (Stop ε) Nat) = .ok (a + b) := if_pos h

theorem slice {bs : List UInt8} {i j : Nat} (hij : i ≤ j) (hj : j ≤ bs.length) :
    (Checked.slice bs i j : Except (Stop ε) (List UInt8)) = .ok ((bs.drop i).take (j - i)) :=
  if_pos ⟨hij, hj⟩

end Returns

/-- The reader faults on no cursor inside its buffer. -/
def Sound (m : Reader (Stop ε) α) : Prop := ∀ c : Cursor, c.pos ≤ c.buf.length → Returns (m c)

namespace Sound

theorem pure (a : α) : Sound (Pure.pure a : Reader (Stop ε) α) := fun _ _ => Returns.ok _

theorem throw (e : ε) : Sound (MonadExcept.throw (.error e) : Reader (Stop ε) α) :=
  fun _ _ => Returns.error e

/-- The second reader starts behind what the first has read. -/
theorem bind {m : Reader (Stop ε) α} {f : α → Reader (Stop ε) β} {R : α → List UInt8 → Prop}
    (h : Sound m) (hm : Parses m R) (hf : ∀ a, Sound (f a)) : Sound (m >>= f) := by
  intro c hc
  refine Returns.bind (h c hc) ?_
  rintro ⟨a, c'⟩ hrun
  obtain ⟨x, rest, hx, -, rfl⟩ := (hm c a c' hc).mp hrun
  exact hf a _ (Cursor.advance hc hx).1

theorem times {r : Reader (Stop ε) α} {R : α → List UInt8 → Prop} (h : Sound r) (hr : Parses r R)
    (n : Nat) : Sound (ByteReader.times n r) := by
  induction n with
  | zero => exact pure []
  | succ n ih =>
    refine h.bind hr (fun a c hc => ?_)
    exact Returns.bind (ih c hc) (fun _ _ => Returns.ok _)

end Sound

/-- What a reader accepts is decided on the cursors inside the buffer. -/
theorem parses_of_eq {m m' : Reader ε α} {R : α → List UInt8 → Prop} (h : Parses m R)
    (heq : ∀ c : Cursor, c.pos ≤ c.buf.length → m' c = m c) : Parses m' R := by
  intro c a c' hc
  rw [heq c hc]
  exact h c a c' hc

end SrcControl.Checked
