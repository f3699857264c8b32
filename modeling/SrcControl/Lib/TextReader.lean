import SrcControl.Lib.ByteReader

/-!
# Optional values, lists and text behind a count

Readers built from a byte and a count: a flag that says whether a value follows, a counted
list with and without a cap, and a byte string that must spell a text.
-/

namespace SrcControl.ByteReader

variable {ε α : Type}

namespace Parses

/-- One byte. -/
theorem byte (short : Nat → ε) :
    Reads (ByteReader.take short 1 >>= fun b => Pure.pure (b.headD 0)) (fun _ => True)
      (fun b => [b]) := by
  refine (bind (take short 1) (fun b _ _ => pure (b.headD 0))).congr ?_
  intro b x
  constructor
  · rintro ⟨bs, _, _, ⟨hl, rfl⟩, ⟨rfl, rfl⟩, rfl⟩
    obtain ⟨a, rfl⟩ := List.length_eq_one_iff.mp hl
    exact ⟨trivial, rfl⟩
  · rintro ⟨-, rfl⟩
    exact ⟨[b], _, [], ⟨rfl, rfl⟩, ⟨rfl, rfl⟩, rfl⟩

/-- A byte string behind its length. -/
theorem sized {count : Reader ε Nat} {P : Nat → Prop} {countBytes : Nat → List UInt8}
    (short : Nat → ε) (hcount : Reads count P countBytes) :
    Reads (count >>= ByteReader.take short) (fun b => P b.length)
      (fun b => countBytes b.length ++ b) := by
  refine (bind hcount (fun n _ _ => take short n)).congr ?_
  intro b x
  constructor
  · rintro ⟨n, _, _, ⟨hn, rfl⟩, ⟨rfl, rfl⟩, rfl⟩
    exact ⟨hn, rfl⟩
  · rintro ⟨hb, rfl⟩
    exact ⟨b.length, _, _, ⟨hb, rfl⟩, ⟨rfl, rfl⟩, rfl⟩

/-- As many elements as the count says. -/
theorem listed {count : Reader ε Nat} {r : Reader ε α} {C : Nat → Prop} {P : α → Prop}
    {countBytes : Nat → List UInt8} {enc : α → List UInt8} (hcount : Reads count C countBytes)
    (h : Reads r P enc) :
    Reads (count >>= fun n => ByteReader.times n r)
      (fun as => C as.length ∧ ∀ a ∈ as, P a)
      (fun as => countBytes as.length ++ as.flatMap enc) := by
  refine (bind hcount (fun n _ _ => times h n)).congr ?_
  intro as x
  constructor
  · rintro ⟨n, x, y, ⟨hn, rfl⟩, ⟨⟨rfl, has⟩, rfl⟩, rfl⟩
    exact ⟨⟨hn, has⟩, rfl⟩
  · rintro ⟨⟨hn, has⟩, rfl⟩
    exact ⟨as.length, _, _, ⟨hn, rfl⟩, ⟨⟨rfl, has⟩, rfl⟩, rfl⟩

/-- A count above the cap is refused. -/
theorem capped {count : Reader ε Nat} {r : Reader ε α} {C : Nat → Prop} {P : α → Prop}
    {countBytes : Nat → List UInt8} {enc : α → List UInt8} (max : Nat) (e : Nat → ε)
    (hcount : Reads count C countBytes) (h : Reads r P enc) :
    Reads (count >>= fun n => if n > max then MonadExcept.throw (e n) else ByteReader.times n r)
      (fun as => (as.length ≤ max ∧ C as.length) ∧ ∀ a ∈ as, P a)
      (fun as => countBytes as.length ++ as.flatMap enc) := by
  have hbody : ∀ n, Parses (if n > max then MonadExcept.throw (e n) else ByteReader.times n r)
      (fun as x => n ≤ max ∧ (as.length = n ∧ ∀ a ∈ as, P a) ∧ x = as.flatMap enc) := by
    intro n
    split_ifs with hn
    · exact (throw (e n)).congr (fun as x => by simp [Nat.not_le.mpr hn])
    · exact (times h n).congr (fun as x => by simp [Nat.not_lt.mp hn])
  refine (bind hcount (fun n _ _ => hbody n)).congr ?_
  intro as x
  constructor
  · rintro ⟨n, x, y, ⟨hn, rfl⟩, ⟨hmax, ⟨rfl, has⟩, rfl⟩, rfl⟩
    exact ⟨⟨⟨hmax, hn⟩, has⟩, rfl⟩
  · rintro ⟨⟨⟨hmax, hn⟩, has⟩, rfl⟩
    exact ⟨as.length, _, _, ⟨hn, rfl⟩, ⟨hmax, ⟨rfl, has⟩, rfl⟩, rfl⟩

/-- A count above the bytes left is refused, with an error that may name both. -/
theorem guarded {count : Reader ε Nat} {r : Reader ε α} {P : α → Prop} {bound : Nat}
    {countBytes : Nat → List UInt8} {enc : α → List UInt8} (e : Nat → Nat → ε)
    (hcount : Reads count (fun n => n < bound) countBytes) (h : Reads r P enc)
    (hne : ∀ a, P a → enc a ≠ []) :
    Reads (do
        let n ← count
        let left ← remaining
        if n > left then MonadExcept.throw (e n left) else ByteReader.times n r)
      (fun as => as.length < bound ∧ ∀ a ∈ as, P a)
      (fun as => countBytes as.length ++ as.flatMap enc) := by
  intro c as c' hc
  have hplain := counted (e := e 0 0) hcount h hne c as c' hc
  refine Iff.trans ?_ hplain
  change (count c >>= fun p => (if p.1 > p.2.buf.length - p.2.pos then
      MonadExcept.throw (e p.1 (p.2.buf.length - p.2.pos)) else ByteReader.times p.1 r :
      Reader ε (List α)) p.2) = _ ↔
    (count c >>= fun p => (if p.1 > p.2.buf.length - p.2.pos then MonadExcept.throw (e 0 0)
      else ByteReader.times p.1 r : Reader ε (List α)) p.2) = _
  cases count c with
  | error e' => exact Iff.rfl
  | ok p =>
    change (if p.1 > p.2.buf.length - p.2.pos then _ else _ : Reader ε (List α)) p.2 = _ ↔
      (if p.1 > p.2.buf.length - p.2.pos then _ else _ : Reader ε (List α)) p.2 = _
    split_ifs
    · constructor <;> intro hthrow <;> cases hthrow
    · exact Iff.rfl

/-- A flag byte, and a value behind `1`. -/
theorem option {flag : Reader ε UInt8} {r : Reader ε α} {P : α → Prop} {enc : α → List UInt8}
    (e : UInt8 → ε) (hflag : Reads flag (fun _ => True) (fun b => [b])) (h : Reads r P enc) :
    Reads (flag >>= fun t => if t = 0 then Pure.pure none
      else if t = 1 then r >>= fun a => Pure.pure (some a) else MonadExcept.throw (e t))
      (fun o => ∀ a, o = some a → P a)
      (fun o => match o with | some a => 1 :: enc a | none => [0]) := by
  have hbody : ∀ t : UInt8, Parses (if t = 0 then Pure.pure none
      else if t = 1 then r >>= fun a => Pure.pure (some a) else MonadExcept.throw (e t))
      (fun o x => (∀ a, o = some a → P a) ∧
        t :: x = match o with | some a => 1 :: enc a | none => [0]) := by
    intro t
    split_ifs with h₀ h₁
    · refine (pure none).congr (fun o x => ?_)
      subst h₀
      cases o <;> simp
    · refine (bind h (fun a _ _ => pure (some a))).congr (fun o x => ?_)
      subst h₁
      constructor
      · rintro ⟨a, _, _, ⟨ha, rfl⟩, ⟨rfl, rfl⟩, rfl⟩
        exact ⟨fun b hb => by cases hb; exact ha, by simp⟩
      · rintro ⟨ho, hx⟩
        cases o with
        | none => simp at hx
        | some a =>
          simp only [List.cons.injEq, true_and] at hx
          exact ⟨a, _, [], ⟨ho a rfl, rfl⟩, ⟨rfl, rfl⟩, by rw [hx, List.append_nil]⟩
    · refine (throw (e t)).congr (fun o x => ?_)
      cases o <;> simp [h₀, h₁]
  refine (bind hflag (fun t _ _ => hbody t)).congr ?_
  intro o x
  constructor
  · rintro ⟨t, _, y, ⟨-, rfl⟩, ⟨ho, hy⟩, rfl⟩
    exact ⟨ho, hy⟩
  · rintro ⟨ho, rfl⟩
    cases o with
    | none => exact ⟨0, _, [], ⟨trivial, rfl⟩, ⟨ho, rfl⟩, rfl⟩
    | some a => exact ⟨1, _, enc a, ⟨trivial, rfl⟩, ⟨ho, rfl⟩, rfl⟩

end Parses

/-- `String::from_utf8` gives back the string its bytes spell. -/
theorem fromUTF8_bytes {b : List UInt8} {s : String} :
    String.fromUTF8? ⟨b.toArray⟩ = some s ↔ s.toByteArray.data.toList = b := by
  unfold String.fromUTF8?
  constructor
  · intro h
    split_ifs at h
    cases h
    rfl
  · rintro rfl
    have hs : (⟨s.toByteArray.data.toList.toArray⟩ : ByteArray) = s.toByteArray := by simp
    rw [dif_pos (by rw [hs]; exact s.isValidUTF8)]
    simp [String.fromUTF8]

/-- A byte string that must spell a text. -/
theorem Parses.text {bytes : Reader ε (List UInt8)} {P : List UInt8 → Prop}
    {enc : List UInt8 → List UInt8} (e : ε) (h : Reads bytes P enc) :
    Reads (bytes >>= fun b => match String.fromUTF8? ⟨b.toArray⟩ with
      | some s => Pure.pure s
      | none => MonadExcept.throw e)
      (fun s : String => P s.toByteArray.data.toList) (fun s => enc s.toByteArray.data.toList) := by
  have hdec : ∀ b : List UInt8, Parses (match String.fromUTF8? ⟨b.toArray⟩ with
      | some s => (Pure.pure s : Reader ε String)
      | none => MonadExcept.throw e) (fun s x => s.toByteArray.data.toList = b ∧ x = []) := by
    intro b
    cases hs : String.fromUTF8? ⟨b.toArray⟩ with
    | some s =>
      refine (Parses.pure s).congr (fun s' x => ?_)
      rw [← fromUTF8_bytes, hs]
      simp [eq_comm]
    | none =>
      refine (Parses.throw e).congr (fun s' x => ?_)
      rw [← fromUTF8_bytes, hs]
      simp
  refine (Parses.bind h (fun b _ _ => hdec b)).congr ?_
  intro s x
  constructor
  · rintro ⟨b, _, _, ⟨hb, rfl⟩, ⟨rfl, rfl⟩, rfl⟩
    exact ⟨hb, List.append_nil _⟩
  · rintro ⟨hs, rfl⟩
    exact ⟨_, _, [], ⟨hs, rfl⟩, ⟨rfl, rfl⟩, (List.append_nil _).symm⟩

end SrcControl.ByteReader
