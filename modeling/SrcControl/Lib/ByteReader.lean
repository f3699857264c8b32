import Mathlib.Algebra.Group.Nat.Defs
import Mathlib.Data.List.Basic
import Mathlib.Tactic.Common

/-!
# Byte readers

Fixed-width numbers and a cursor over a byte string. `Parses m R` says all there is to
say about a reader: it accepts exactly the buffers that start, at the cursor, with the
bytes `R` gives some value, and then returns that value just behind them. Both the round
trip and the exactness of a format are read off it.
-/

namespace SrcControl.ByteReader

/-! ## Fixed-width numbers -/

def leBytes : Nat → Nat → List UInt8
  | 0, _ => []
  | w + 1, n => UInt8.ofNat n :: leBytes w (n / 256)

def ofLe : List UInt8 → Nat
  | [] => 0
  | b :: bs => b.toNat + 256 * ofLe bs

def beBytes (w n : Nat) : List UInt8 := (leBytes w n).reverse

def ofBe (bs : List UInt8) : Nat := ofLe bs.reverse

@[simp] theorem length_leBytes (w n : Nat) : (leBytes w n).length = w := by
  induction w generalizing n with
  | zero => rfl
  | succ w ih => simp [leBytes, ih]

@[simp] theorem length_beBytes (w n : Nat) : (beBytes w n).length = w := by simp [beBytes]

theorem ofLe_lt (bs : List UInt8) : ofLe bs < 256 ^ bs.length := by
  induction bs with
  | nil => simp [ofLe]
  | cons b bs ih =>
    have hb := UInt8.toNat_lt b
    rw [List.length_cons, Nat.pow_succ, ofLe]
    omega

theorem ofLe_leBytes {w n : Nat} (h : n < 256 ^ w) : ofLe (leBytes w n) = n := by
  induction w generalizing n with
  | zero => simpa [ofLe, leBytes, eq_comm] using h
  | succ w ih =>
    have hq : n / 256 < 256 ^ w := by
      rw [Nat.pow_succ] at h
      omega
    rw [leBytes, ofLe, ih hq]
    simp only [UInt8.toNat_ofNat']
    omega

theorem leBytes_ofLe (bs : List UInt8) : leBytes bs.length (ofLe bs) = bs := by
  induction bs with
  | nil => rfl
  | cons b bs ih =>
    have hb := UInt8.toNat_lt b
    have hq : (b.toNat + 256 * ofLe bs) / 256 = ofLe bs := by omega
    have hhead : UInt8.ofNat (b.toNat + 256 * ofLe bs) = b := by
      apply UInt8.toNat_inj.mp
      simp only [UInt8.toNat_ofNat']
      omega
    rw [List.length_cons, ofLe, leBytes, hq, ih, hhead]

theorem ofBe_lt (bs : List UInt8) : ofBe bs < 256 ^ bs.length := by
  simpa [ofBe] using ofLe_lt bs.reverse

theorem ofBe_beBytes {w n : Nat} (h : n < 256 ^ w) : ofBe (beBytes w n) = n := by
  rw [ofBe, beBytes, List.reverse_reverse, ofLe_leBytes h]

theorem beBytes_ofBe (bs : List UInt8) : beBytes bs.length (ofBe bs) = bs := by
  rw [beBytes, ofBe, ← List.length_reverse, leBytes_ofLe, List.reverse_reverse]

/-! ## Readers -/

structure Cursor where
  buf : List UInt8
  pos : Nat

/-- The bytes behind the cursor. -/
def Cursor.rest (c : Cursor) : List UInt8 := c.buf.drop c.pos

abbrev Reader (ε α : Type) := StateT Cursor (Except ε) α

variable {ε α β : Type}

def take (short : Nat → ε) (n : Nat) : Reader ε (List UInt8) := fun c =>
  if c.pos + n ≤ c.buf.length then .ok (c.rest.take n, ⟨c.buf, c.pos + n⟩)
  else .error (short c.pos)

/-- Bytes not yet consumed. -/
def remaining : Reader ε Nat := fun c => .ok (c.buf.length - c.pos, c)

/-- `for _ in 0..n { out.push(r()?) }`. -/
def times : Nat → Reader ε α → Reader ε (List α)
  | 0, _ => pure []
  | n + 1, r => do
    let a ← r
    let rest ← times n r
    pure (a :: rest)

/-- What a reader accepts, and what it returns of it. -/
def Parses (m : Reader ε α) (R : α → List UInt8 → Prop) : Prop :=
  ∀ (c : Cursor) (a : α) (c' : Cursor), c.pos ≤ c.buf.length →
    (m c = .ok (a, c') ↔
      ∃ x rest, c.rest = x ++ rest ∧ R a x ∧ c' = ⟨c.buf, c.pos + x.length⟩)

/-- A reader of the values that satisfy `P`, each written by `enc`. -/
abbrev Reads (m : Reader ε α) (P : α → Prop) (enc : α → List UInt8) : Prop :=
  Parses m (fun a x => P a ∧ x = enc a)

/-- Behind the bytes `x` the cursor stands before the rest. -/
theorem Cursor.advance {c : Cursor} {x rest : List UInt8} (hc : c.pos ≤ c.buf.length)
    (h : c.rest = x ++ rest) : c.pos + x.length ≤ c.buf.length ∧
      Cursor.rest ⟨c.buf, c.pos + x.length⟩ = rest := by
  have hlen := congrArg List.length h
  simp only [Cursor.rest, List.length_drop, List.length_append] at hlen
  refine ⟨by omega, ?_⟩
  change c.buf.drop (c.pos + x.length) = rest
  rw [← List.drop_drop, show c.buf.drop c.pos = x ++ rest from h, List.drop_left]

namespace Parses

theorem congr {m : Reader ε α} {R R' : α → List UInt8 → Prop} (h : Parses m R)
    (hR : ∀ a x, R a x ↔ R' a x) : Parses m R' := by
  intro c a c' hc
  rw [h c a c' hc]
  simp only [hR]

theorem pure (a : α) : Parses (pure a : Reader ε α) (fun b x => b = a ∧ x = []) := by
  intro c b c' hc
  have hrun : (Pure.pure a : Reader ε α) c = .ok (a, c) := rfl
  rw [hrun]
  constructor
  · intro h
    cases h
    exact ⟨[], c.rest, rfl, ⟨rfl, rfl⟩, rfl⟩
  · rintro ⟨x, rest, -, ⟨rfl, rfl⟩, rfl⟩
    rfl

theorem throw (e : ε) : Parses (throw e : Reader ε α) (fun _ _ => False) := by
  intro c b c' hc
  constructor
  · intro h
    cases h
  · rintro ⟨x, rest, -, h, -⟩
    exact h.elim

theorem bind {m : Reader ε α} {f : α → Reader ε β} {R : α → List UInt8 → Prop}
    {S : α → β → List UInt8 → Prop} (hm : Parses m R) (hf : ∀ a x, R a x → Parses (f a) (S a)) :
    Parses (m >>= f) (fun b z => ∃ a x y, R a x ∧ S a b y ∧ z = x ++ y) := by
  intro c b c' hc
  have hrun : (m >>= f) c = (m c) >>= fun p => f p.1 p.2 := rfl
  rw [hrun]
  constructor
  · intro h
    cases hmc : m c with
    | error e =>
      rw [hmc] at h
      cases h
    | ok p =>
      obtain ⟨a, c₁⟩ := p
      rw [hmc] at h
      obtain ⟨x, rest, hx, hR, rfl⟩ := (hm c a c₁ hc).mp hmc
      obtain ⟨hpos, hrest⟩ := Cursor.advance hc hx
      obtain ⟨y, rest', hy, hS, rfl⟩ := (hf a x hR _ b c' hpos).mp h
      rw [hrest] at hy
      refine ⟨x ++ y, rest', ?_, ⟨a, x, y, hR, hS, rfl⟩, ?_⟩
      · rw [hx, hy, List.append_assoc]
      · simp [Nat.add_assoc]
  · rintro ⟨z, rest, hz, ⟨a, x, y, hR, hS, rfl⟩, rfl⟩
    rw [List.append_assoc] at hz
    obtain ⟨hpos, hrest⟩ := Cursor.advance hc hz
    have hm' : m c = .ok (a, ⟨c.buf, c.pos + x.length⟩) :=
      (hm c a _ hc).mpr ⟨x, y ++ rest, hz, hR, rfl⟩
    rw [hm']
    refine (hf a x hR _ b _ hpos).mpr ⟨y, rest, hrest, hS, ?_⟩
    simp [Nat.add_assoc]

theorem map {m : Reader ε α} {R : α → List UInt8 → Prop} (h : Parses m R) (f : α → β) :
    Parses (f <$> m) (fun b x => ∃ a, R a x ∧ b = f a) := by
  rw [map_eq_pure_bind]
  refine (bind h (fun a _ _ => pure (f a))).congr ?_
  intro b x
  constructor
  · rintro ⟨a, y, _, hR, ⟨rfl, rfl⟩, rfl⟩
    exact ⟨a, by simpa using hR, rfl⟩
  · rintro ⟨a, hR, rfl⟩
    exact ⟨a, x, [], hR, ⟨rfl, rfl⟩, by simp⟩

/-- One field of a record, `proj` of the record read: `C` gathers the fields before it. -/
theorem field {m : Reader ε α} {f : α → Reader ε β} {P : α → Prop} {enc : α → List UInt8}
    {C Q : β → Prop} {write : β → List UInt8} (proj : β → α) (hm : Reads m P enc)
    (hf : ∀ a, P a → Reads (f a) (fun b => (C b ∧ proj b = a) ∧ Q b) write) :
    Reads (m >>= f) (fun b => C b ∧ P (proj b) ∧ Q b) (fun b => enc (proj b) ++ write b) := by
  refine (bind hm (fun a x ha => hf a ha.1)).congr ?_
  intro b z
  constructor
  · rintro ⟨a, _, _, ⟨ha, rfl⟩, ⟨⟨⟨hC, rfl⟩, hQ⟩, rfl⟩, rfl⟩
    exact ⟨⟨hC, ha, hQ⟩, rfl⟩
  · rintro ⟨⟨hC, ha, hQ⟩, rfl⟩
    exact ⟨proj b, _, _, ⟨ha, rfl⟩, ⟨⟨⟨hC, rfl⟩, hQ⟩, rfl⟩, rfl⟩

/-- The record, once its fields are gathered. -/
theorem record {C : β → Prop} {r : β} (h : ∀ b, C b ↔ b = r) :
    Reads (Pure.pure r : Reader ε β) (fun b => C b ∧ True) (fun _ => []) := by
  refine (pure r).congr ?_
  intro b x
  simp [h]

theorem take (short : Nat → ε) (n : Nat) :
    Reads (ByteReader.take short n) (fun bs => bs.length = n) (fun bs => bs) := by
  intro c a c' hc
  unfold ByteReader.take
  have hlen : c.rest.length = c.buf.length - c.pos := by simp [Cursor.rest]
  by_cases hn : c.pos + n ≤ c.buf.length
  · rw [if_pos hn]
    constructor
    · intro h
      cases h
      refine ⟨c.rest.take n, c.rest.drop n, (List.take_append_drop n c.rest).symm, ⟨?_, rfl⟩, ?_⟩
      · change (c.rest.take n).length = n
        rw [List.length_take]
        omega
      · rw [List.length_take, Nat.min_eq_left (by omega)]
    · rintro ⟨x, rest, hx, ⟨hl, rfl⟩, rfl⟩
      rw [hx, ← hl, List.take_left]
  · rw [if_neg hn]
    constructor
    · intro h
      cases h
    · rintro ⟨x, rest, hx, ⟨hl, rfl⟩, -⟩
      have := congrArg List.length hx
      rw [List.length_append] at this
      omega

/-- A big-endian number of `w` bytes. -/
theorem be (short : Nat → ε) (w : Nat) :
    Reads (ByteReader.take short w >>= fun bs => Pure.pure (ofBe bs)) (fun n => n < 256 ^ w)
      (beBytes w) := by
  refine (bind (take short w) (fun bs _ _ => pure (ofBe bs))).congr ?_
  intro n x
  constructor
  · rintro ⟨_, bs, _, ⟨hl, rfl⟩, ⟨rfl, rfl⟩, rfl⟩
    refine ⟨hl ▸ ofBe_lt bs, ?_⟩
    rw [← hl, beBytes_ofBe, List.append_nil]
  · rintro ⟨hn, rfl⟩
    exact ⟨beBytes w n, _, [], ⟨length_beBytes w n, rfl⟩, ⟨(ofBe_beBytes hn).symm, rfl⟩, by simp⟩

/-- A little-endian number of `w` bytes. -/
theorem le (short : Nat → ε) (w : Nat) :
    Reads (ByteReader.take short w >>= fun bs => Pure.pure (ofLe bs)) (fun n => n < 256 ^ w)
      (leBytes w) := by
  refine (bind (take short w) (fun bs _ _ => pure (ofLe bs))).congr ?_
  intro n x
  constructor
  · rintro ⟨_, bs, _, ⟨hl, rfl⟩, ⟨rfl, rfl⟩, rfl⟩
    refine ⟨hl ▸ ofLe_lt bs, ?_⟩
    rw [← hl, leBytes_ofLe, List.append_nil]
  · rintro ⟨hn, rfl⟩
    exact ⟨leBytes w n, _, [], ⟨length_leBytes w n, rfl⟩, ⟨(ofLe_leBytes hn).symm, rfl⟩, by simp⟩

theorem times {r : Reader ε α} {P : α → Prop} {enc : α → List UInt8} (h : Reads r P enc) (n : Nat) :
    Reads (ByteReader.times n r) (fun as => as.length = n ∧ ∀ a ∈ as, P a)
      (fun as => as.flatMap enc) := by
  induction n with
  | zero =>
    refine (pure []).congr ?_
    intro as x
    constructor
    · rintro ⟨rfl, rfl⟩
      simp
    · rintro ⟨⟨hl, -⟩, rfl⟩
      rw [List.length_eq_zero_iff] at hl
      subst hl
      exact ⟨rfl, rfl⟩
  | succ n ih =>
    refine (bind h (fun a _ _ => bind ih (fun as _ _ => pure (a :: as)))).congr ?_
    intro as x
    constructor
    · rintro ⟨a, x, y, ⟨ha, rfl⟩, ⟨as', y', z, ⟨⟨hl, has⟩, rfl⟩, ⟨rfl, rfl⟩, rfl⟩, rfl⟩
      refine ⟨⟨by rw [List.length_cons, hl], ?_⟩, by simp⟩
      intro b hb
      rcases List.mem_cons.mp hb with rfl | hb
      · exact ha
      · exact has b hb
    · rintro ⟨⟨hl, has⟩, rfl⟩
      cases as with
      | nil => cases hl
      | cons a as =>
        refine ⟨a, enc a, _, ⟨has a (by simp), rfl⟩, ⟨as, _, [], ⟨⟨?_, ?_⟩, rfl⟩, ⟨rfl, rfl⟩, rfl⟩, ?_⟩
        · simpa using hl
        · exact fun b hb => has b (by simp [hb])
        · simp

/-- A counted list whose count is refused when it exceeds the bytes left: the guard turns
away no honest list, since every element takes a byte. -/
theorem counted {count : Reader ε Nat} {r : Reader ε α} {P : α → Prop} {bound : Nat}
    {countBytes : Nat → List UInt8} {enc : α → List UInt8} {e : ε}
    (hcount : Reads count (fun n => n < bound) countBytes) (h : Reads r P enc)
    (hne : ∀ a, P a → enc a ≠ []) :
    Reads (do
        let n ← count
        let left ← remaining
        if n > left then MonadExcept.throw e else ByteReader.times n r)
      (fun as => as.length < bound ∧ ∀ a ∈ as, P a)
      (fun as => countBytes as.length ++ as.flatMap enc) := by
  have hlen : ∀ as : List α, (∀ a ∈ as, P a) → as.length ≤ (as.flatMap enc).length := by
    intro as has
    induction as with
    | nil => simp
    | cons a as ih =>
      have hpos := List.length_pos_iff.mpr (hne a (has a (by simp)))
      have := ih (fun b hb => has b (by simp [hb]))
      simp only [List.length_cons, List.flatMap_cons, List.length_append]
      omega
  have hplain : Reads (count >>= fun n => ByteReader.times n r)
      (fun as => as.length < bound ∧ ∀ a ∈ as, P a)
      (fun as => countBytes as.length ++ as.flatMap enc) := by
    refine (bind hcount (fun n _ _ => times h n)).congr ?_
    intro as x
    constructor
    · rintro ⟨n, x, y, ⟨hn, rfl⟩, ⟨⟨rfl, has⟩, rfl⟩, rfl⟩
      exact ⟨⟨hn, has⟩, rfl⟩
    · rintro ⟨⟨hn, has⟩, rfl⟩
      exact ⟨as.length, _, _, ⟨hn, rfl⟩, ⟨⟨rfl, has⟩, rfl⟩, rfl⟩
  intro c as c' hc
  rw [← hplain c as c' hc]
  change (count c >>= fun p => (if p.1 > p.2.buf.length - p.2.pos then MonadExcept.throw e
    else ByteReader.times p.1 r : Reader ε (List α)) p.2) = _ ↔
      (count c >>= fun p => ByteReader.times p.1 r p.2) = _
  cases hcc : count c with
  | error e' => exact Iff.rfl
  | ok p =>
    obtain ⟨n, c₁⟩ := p
    obtain ⟨x, rest, hx, -, rfl⟩ := (hcount c n c₁ hc).mp hcc
    obtain ⟨hpos, hrest⟩ := Cursor.advance hc hx
    change (if n > c.buf.length - (c.pos + x.length) then MonadExcept.throw e
      else ByteReader.times n r : Reader ε (List α)) _ = _ ↔ ByteReader.times n r _ = _
    split_ifs with hn
    · constructor
      · intro hthrow
        cases hthrow
      · intro hok
        obtain ⟨y, rest', hy, ⟨⟨hl, has⟩, rfl⟩, -⟩ := (times h n _ as c' hpos).mp hok
        have hleft := congrArg List.length hy
        simp only [Cursor.rest, List.length_drop, List.length_append] at hleft
        have := hlen as has
        omega
    · exact Iff.rfl

end Parses

end SrcControl.ByteReader
