import Mathlib.Algebra.Group.Nat.Defs
import Mathlib.Data.List.DropRight
import Mathlib.Tactic.Common

/-!
# Decimal numbers and lines of text

Decimal texts of bounded integers and their parsers; texts made of newline-terminated
lines, and how a prefix of such a text splits into lines.
-/

namespace SrcControl.LineText

/-- Remove the characters `ws` at both ends. -/
def trim (ws : Char → Bool) (s : List Char) : List Char := (s.dropWhile ws).rdropWhile ws

theorem trim_eq_self {ws : Char → Bool} {s : List Char} (h : ∀ c ∈ s, ws c = false) :
    trim ws s = s := by
  have hd : s.dropWhile ws = s := by
    cases s with
    | nil => rfl
    | cons c cs => simp [h c (by simp)]
  rw [trim, hd, List.rdropWhile_eq_self_iff]
  intro hne
  simp [h _ (List.getLast_mem hne)]

/-! ### Decimal texts -/

def parseDigits (s : List Char) : Option Nat :=
  if s ≠ [] ∧ s.all Char.isDigit then some (Nat.ofDigitChars 10 s 0) else none

def stripPlus : List Char → List Char
  | '+' :: cs => cs
  | cs => cs

/-- The values below `bound`; a leading plus is allowed. -/
def parseUnsigned (bound : Nat) (s : List Char) : Option Nat :=
  (parseDigits (stripPlus s)).filter (fun n => n < bound)

/-- The values from `-bound` to below `bound`. -/
def parseSigned (bound : Nat) : List Char → Option Int
  | '-' :: cs => ((parseDigits cs).filter (fun n => n ≤ bound)).map (fun n => -(n : Int))
  | cs => (parseUnsigned bound cs).map (fun n => (n : Int))

def showNat (n : Nat) : List Char := Nat.toDigits 10 n

def showInt : Int → List Char
  | .ofNat n => showNat n
  | .negSucc n => '-' :: showNat (n + 1)

theorem showNat_isDigit {n : Nat} {c : Char} (h : c ∈ showNat n) : c.isDigit :=
  Nat.isDigit_of_mem_toDigits (by decide) (by decide) h

theorem stripPlus_showNat (n : Nat) : stripPlus (showNat n) = showNat n := by
  cases h : showNat n with
  | nil => rfl
  | cons c cs =>
    have hc : c.isDigit := showNat_isDigit (n := n) (by rw [h]; exact List.mem_cons_self)
    unfold stripPlus
    split
    · next hp =>
      cases hp
      exact absurd hc (by decide)
    · rfl

theorem parseDigits_showNat (n : Nat) : parseDigits (showNat n) = some n := by
  have hall : (showNat n).all Char.isDigit := List.all_eq_true.mpr fun _ hc => showNat_isDigit hc
  rw [parseDigits, if_pos ⟨Nat.toDigits_ne_nil, hall⟩]
  exact congrArg some Nat.ofDigitChars_ten_toDigits

theorem parseUnsigned_showNat {bound n : Nat} (h : n < bound) :
    parseUnsigned bound (showNat n) = some n := by
  simp [parseUnsigned, stripPlus_showNat, parseDigits_showNat, h]

theorem parseSigned_showInt {bound : Nat} {i : Int} (hlo : -(bound : Int) ≤ i)
    (hhi : i < bound) : parseSigned bound (showInt i) = some i := by
  cases i with
  | ofNat n =>
    have hn : n < bound := by simpa using hhi
    have hp : parseSigned bound (showNat n) = (parseUnsigned bound (showNat n)).map (fun n => (n : Int)) := by
      unfold parseSigned
      split
      · next cs hs =>
        have hc : '-'.isDigit := showNat_isDigit (n := n) (by rw [hs]; exact List.mem_cons_self)
        exact absurd hc (by decide)
      · rfl
    rw [showInt, hp, parseUnsigned_showNat hn]
    rfl
  | negSucc n =>
    have hn : n + 1 ≤ bound := by omega
    have hf : (some (n + 1)).filter (fun n => decide (n ≤ bound)) = some (n + 1) :=
      Option.filter_some_pos (by simpa using hn)
    rw [showInt, parseSigned, parseDigits_showNat, hf]
    rfl

/-- A decimal text has only digits and the sign. -/
theorem mem_showInt {i : Int} {c : Char} (h : c ∈ showInt i) : c.isDigit ∨ c = '-' := by
  cases i with
  | ofNat n => exact Or.inl (showNat_isDigit h)
  | negSucc n =>
    rcases List.mem_cons.mp h with h | h
    · exact Or.inr h
    · exact Or.inl (showNat_isDigit h)

/-! ### Hexadecimal texts -/

def hexChars : List Char :=
  ['0', '1', '2', '3', '4', '5', '6', '7', '8', '9', 'a', 'b', 'c', 'd', 'e', 'f']

def hexDigit (n : Nat) : Char := hexChars.getD n '0'

def encodeHex (bs : List UInt8) : List Char :=
  bs.flatMap (fun b => [hexDigit (b.toNat / 16), hexDigit (b.toNat % 16)])

def hexValue (c : Char) : Option Nat :=
  if c.isDigit then some (c.toNat - 48)
  else if 'a' ≤ c ∧ c ≤ 'f' then some (c.toNat - 87)
  else if 'A' ≤ c ∧ c ≤ 'F' then some (c.toNat - 55)
  else none

def decodeHex : List Char → Option (List UInt8)
  | [] => some []
  | [_] => none
  | hi :: lo :: cs => do
    let h ← hexValue hi
    let l ← hexValue lo
    let bs ← decodeHex cs
    pure (UInt8.ofNat (16 * h + l) :: bs)

theorem hexDigit_mem (n : Nat) : hexDigit n ∈ hexChars := by
  rw [hexDigit, List.getD_eq_getElem?_getD]
  cases h : hexChars[n]? with
  | none => exact (by decide : '0' ∈ hexChars)
  | some c => exact List.mem_of_getElem? h

theorem hexValue_hexDigit : ∀ n < 16, hexValue (hexDigit n) = some n := by decide

theorem mem_encodeHex {bs : List UInt8} {c : Char} (h : c ∈ encodeHex bs) : c ∈ hexChars := by
  obtain ⟨b, -, hb⟩ := List.mem_flatMap.mp h
  rcases List.mem_pair.mp hb with rfl | rfl
  · exact hexDigit_mem _
  · exact hexDigit_mem _

theorem decodeHex_encodeHex (bs : List UInt8) : decodeHex (encodeHex bs) = some bs := by
  induction bs with
  | nil => rfl
  | cons b bs ih =>
    have hb : b.toNat < 256 := b.toNat_lt
    have hcons : encodeHex (b :: bs) =
        hexDigit (b.toNat / 16) :: hexDigit (b.toNat % 16) :: encodeHex bs := rfl
    have hsum : 16 * (b.toNat / 16) + b.toNat % 16 = b.toNat := Nat.div_add_mod b.toNat 16
    rw [hcons, decodeHex, hexValue_hexDigit _ (by omega), hexValue_hexDigit _ (by omega), ih]
    have hbyte : UInt8.ofNat (16 * (b.toNat / 16) + b.toNat % 16) = b := by
      rw [hsum, UInt8.ofNat_toNat]
    exact congrArg (fun x => some (x :: bs)) hbyte

/-! ### Prefixes and separators -/

def stripPrefix (p s : List Char) : Option (List Char) :=
  if p <+: s then some (s.drop p.length) else none

@[simp] theorem stripPrefix_append (p s : List Char) : stripPrefix p (p ++ s) = some s := by
  simp [stripPrefix]

theorem stripPrefix_eq_some {p s t : List Char} (h : stripPrefix p s = some t) : s = p ++ t := by
  unfold stripPrefix at h
  split at h
  · next hp =>
    obtain ⟨r, rfl⟩ := hp
    simpa using h
  · cases h

/-- The parts before and after the first `sep`. -/
def splitOnce (sep : Char) (s : List Char) : Option (List Char × List Char) :=
  match s.dropWhile (· != sep) with
  | [] => none
  | _ :: b => some (s.takeWhile (· != sep), b)

theorem splitOnce_append {sep : Char} {a : List Char} (b : List Char) (h : sep ∉ a) :
    splitOnce sep (a ++ sep :: b) = some (a, b) := by
  have ha : ∀ c ∈ a, (c != sep) = true := by
    intro c hc
    simp only [bne_iff_ne, ne_eq]
    rintro rfl
    exact h hc
  have hdrop : (a ++ sep :: b).dropWhile (· != sep) = sep :: b := by
    rw [List.dropWhile_append_of_pos ha]
    simp
  have htake : (a ++ sep :: b).takeWhile (· != sep) = a := by
    rw [List.takeWhile_append_of_pos ha]
    simp
  simp only [splitOnce, hdrop, htake]

theorem prefix_append_cases {α : Type} {q a b : List α} (h : q <+: a ++ b) :
    q <+: a ∨ ∃ q', q = a ++ q' ∧ q' <+: b := by
  rcases List.prefix_or_prefix_of_prefix h (List.prefix_append a b) with hq | ⟨q', rfl⟩
  · exact Or.inl hq
  · exact Or.inr ⟨q', rfl, (List.prefix_append_right_inj a).mp h⟩

/-- A prefix of concatenated pieces: whole pieces, and possibly a proper prefix of one more. -/
theorem prefix_flatMap_cases {α β : Type} {f : α → List β} {xs : List α} {q : List β}
    (h : q <+: xs.flatMap f) : ∃ done rest t, xs = done ++ rest ∧ q = done.flatMap f ++ t ∧
      (t = [] ∨ ∃ x rest', rest = x :: rest' ∧ t <+: f x ∧ t ≠ f x) := by
  induction xs generalizing q with
  | nil => exact ⟨[], [], [], rfl, List.prefix_nil.mp h, Or.inl rfl⟩
  | cons x xs ih =>
    have hstop : ∀ t, t <+: f x → t ≠ f x → q = t → ∃ done rest t, x :: xs = done ++ rest ∧
        q = done.flatMap f ++ t ∧ (t = [] ∨ ∃ x rest', rest = x :: rest' ∧ t <+: f x ∧ t ≠ f x) :=
      fun t ht hne hq => ⟨[], x :: xs, t, rfl, hq, Or.inr ⟨x, xs, rfl, ht, hne⟩⟩
    have hgo : ∀ q', q = f x ++ q' → q' <+: xs.flatMap f → ∃ done rest t, x :: xs = done ++ rest ∧
        q = done.flatMap f ++ t ∧ (t = [] ∨ ∃ x rest', rest = x :: rest' ∧ t <+: f x ∧ t ≠ f x) := by
      intro q' hq hq'
      obtain ⟨done, rest, t, rfl, rfl, ht⟩ := ih hq'
      exact ⟨x :: done, rest, t, rfl, by rw [hq, List.flatMap_cons, List.append_assoc], ht⟩
    rw [List.flatMap_cons] at h
    rcases prefix_append_cases h with hq | ⟨q', hq, hq'⟩
    · by_cases he : q = f x
      · exact hgo [] (by simpa using he) List.nil_prefix
      · exact hstop q hq he rfl
    · exact hgo q' hq hq'

/-! ### Lines -/

/-- `split_inclusive('\n')`: every line keeps its newline. -/
def rawLines : List Char → List (List Char)
  | [] => []
  | c :: cs =>
    if c = '\n' then [c] :: rawLines cs
    else match rawLines cs with
      | [] => [[c]]
      | l :: ls => (c :: l) :: ls

def stripLast (c : Char) (s : List Char) : List Char :=
  if s.getLast? = some c then s.dropLast else s

/-- A line without its newline, and without a carriage return before that newline. -/
def lineBody (raw : List Char) : List Char :=
  if raw.getLast? = some '\n' then stripLast '\r' raw.dropLast else raw

/-- The text of lines, each ended by a newline. -/
def unlines (ls : List (List Char)) : List Char := ls.flatMap (· ++ ['\n'])

@[simp] theorem unlines_nil : unlines [] = [] := rfl

@[simp] theorem unlines_cons (l : List Char) (ls : List (List Char)) :
    unlines (l :: ls) = l ++ '\n' :: unlines ls := by simp [unlines]

theorem unlines_append (a b : List (List Char)) : unlines (a ++ b) = unlines a ++ unlines b := by
  simp [unlines]

theorem rawLines_line {l : List Char} (rest : List Char) (h : '\n' ∉ l) :
    rawLines (l ++ '\n' :: rest) = (l ++ ['\n']) :: rawLines rest := by
  induction l with
  | nil => simp [rawLines]
  | cons c cs ih =>
    have hc : c ≠ '\n' := fun e => h (by simp [e])
    rw [List.cons_append, rawLines, if_neg hc, ih fun hm => h (List.mem_cons_of_mem c hm)]
    rfl

theorem rawLines_unlines_append {ls : List (List Char)} (rest : List Char)
    (h : ∀ l ∈ ls, '\n' ∉ l) :
    rawLines (unlines ls ++ rest) = ls.map (· ++ ['\n']) ++ rawLines rest := by
  induction ls with
  | nil => rfl
  | cons l ls ih =>
    have hcons : unlines (l :: ls) ++ rest = l ++ '\n' :: (unlines ls ++ rest) := by simp
    rw [hcons, rawLines_line _ (h l (by simp)), ih fun l' hl' => h l' (by simp [hl'])]
    rfl

theorem rawLines_last {l : List Char} (hne : l ≠ []) (h : '\n' ∉ l) : rawLines l = [l] := by
  induction l with
  | nil => exact absurd rfl hne
  | cons c cs ih =>
    have hc : c ≠ '\n' := fun e => h (by simp [e])
    rw [rawLines, if_neg hc]
    cases cs with
    | nil => rfl
    | cons d ds => rw [ih (by simp) fun hm => h (List.mem_cons_of_mem c hm)]

theorem stripLast_append (c : Char) (s : List Char) : stripLast c (s ++ [c]) = s := by
  simp [stripLast]

theorem stripLast_eq_self {c : Char} {s : List Char} (h : c ∉ s) : stripLast c s = s := by
  rw [stripLast, if_neg]
  intro he
  exact h (List.mem_of_getLast? he)

theorem prefix_stripLast (c : Char) (s : List Char) : stripLast c s <+: s := by
  unfold stripLast
  split
  · exact List.dropLast_prefix s
  · exact List.prefix_rfl

theorem lineBody_ended (l : List Char) : lineBody (l ++ ['\n']) = stripLast '\r' l := by
  simp [lineBody]

theorem lineBody_append {l : List Char} (h : '\r' ∉ l) : lineBody (l ++ ['\n']) = l := by
  rw [lineBody_ended, stripLast_eq_self h]

theorem lineBody_last {l : List Char} (hn : '\n' ∉ l) : lineBody l = l := by
  rw [lineBody, if_neg]
  intro he
  exact hn (List.mem_of_getLast? he)

theorem prefix_lineBody (raw : List Char) : lineBody raw <+: raw := by
  unfold lineBody
  split
  · exact (prefix_stripLast _ _).trans (List.dropLast_prefix raw)
  · exact List.prefix_rfl

/-- The raw lines put back together. -/
theorem rawLines_flatten (s : List Char) : (rawLines s).flatten = s := by
  induction s with
  | nil => rfl
  | cons c cs ih =>
    rw [rawLines]
    split
    · simp [ih]
    · cases h : rawLines cs with
      | nil => simpa [h] using ih
      | cons l ls => simpa [h] using ih

/-- A line of a prefix of a text is a prefix of one of its lines. -/
theorem lineBody_of_prefix {ls : List (List Char)} (h : ∀ l ∈ ls, '\n' ∉ l) {q raw : List Char}
    (hq : q <+: unlines ls) (hraw : raw ∈ rawLines q) : ∃ l ∈ ls, lineBody raw <+: l := by
  induction ls generalizing q with
  | nil =>
    obtain rfl : q = [] := List.prefix_nil.mp hq
    cases hraw
  | cons l ls ih =>
    have hl : '\n' ∉ l := h l (by simp)
    rw [unlines_cons, ← List.singleton_append, ← List.append_assoc] at hq
    rcases prefix_append_cases hq with hshort | ⟨q', rfl, hq'⟩
    · have hcase : q = l ++ ['\n'] ∨ q <+: l := by
        rcases List.prefix_concat_iff.mp hshort with he | he
        · exact Or.inl he
        · exact Or.inr he
      rcases hcase with rfl | hp
      · rw [rawLines_line [] hl] at hraw
        simp only [rawLines, List.mem_singleton] at hraw
        subst hraw
        exact ⟨l, by simp, by rw [lineBody_ended]; exact prefix_stripLast _ _⟩
      · by_cases hne : q = []
        · subst hne
          cases hraw
        · rw [rawLines_last hne fun hm => hl (hp.subset hm), List.mem_singleton] at hraw
          subst hraw
          exact ⟨l, by simp, (prefix_lineBody raw).trans hp⟩
    · rw [List.append_assoc, List.singleton_append, rawLines_line _ hl] at hraw
      rcases List.mem_cons.mp hraw with rfl | hraw
      · exact ⟨l, by simp, by rw [lineBody_ended]; exact prefix_stripLast _ _⟩
      · obtain ⟨l', hl', hp⟩ := ih (fun l' hl' => h l' (by simp [hl'])) hq' hraw
        exact ⟨l', by simp [hl'], hp⟩

/-! ### Bytes of a text -/

def textBytes (s : List Char) : ByteArray := (String.ofList s).toByteArray

theorem textBytes_eq (s : List Char) : textBytes s = s.utf8Encode := String.toByteArray_ofList

theorem textBytes_append (s t : List Char) : textBytes (s ++ t) = textBytes s ++ textBytes t := by
  simp only [textBytes_eq, List.utf8Encode_append]

/-- The text a file spells, when its bytes are UTF-8. -/
def decodeText (b : ByteArray) : Option (List Char) := (String.fromUTF8? b).map String.toList

theorem decodeText_textBytes (s : List Char) : decodeText (textBytes s) = some s := by
  rw [textBytes_eq, decodeText, String.fromUTF8?, dif_pos ByteArray.isValidUTF8_utf8Encode]
  exact congrArg some String.toList_ofList

theorem decodeText_eq_some {b : ByteArray} {s : List Char} (h : decodeText b = some s) :
    b = textBytes s := by
  rw [decodeText, String.fromUTF8?] at h
  split at h
  · next hv =>
    cases h
    rw [textBytes, String.ofList_toList]
    rfl
  · cases h

theorem isValidUTF8_iff_decodeText {b : ByteArray} :
    b.IsValidUTF8 ↔ ∃ s, decodeText b = some s := by
  constructor
  · rintro ⟨s, rfl⟩
    exact ⟨s, by rw [← textBytes_eq, decodeText_textBytes]⟩
  · rintro ⟨s, h⟩
    rw [decodeText_eq_some h, textBytes_eq]
    exact ByteArray.isValidUTF8_utf8Encode

theorem prefix_of_utf8Encode_append {q s : List Char} {b : ByteArray}
    (h : s.utf8Encode = q.utf8Encode ++ b) : q <+: s := by
  induction q generalizing s with
  | nil => exact List.nil_prefix
  | cons d q ih =>
    rw [List.utf8Encode_cons, ByteArray.append_assoc] at h
    cases s with
    | nil =>
      have hsize := congrArg ByteArray.size h
      have hpos := d.utf8Size_pos
      simp [List.utf8Encode_singleton] at hsize
      omega
    | cons c s =>
      rw [List.utf8Encode_cons] at h
      obtain rfl : c = d := by
        have hfirst := congrArg (fun b => ByteArray.utf8DecodeChar? b 0) h
        simpa [List.utf8DecodeChar?_utf8Encode_singleton_append] using hfirst
      rw [ByteArray.append_right_inj] at h
      exact (List.prefix_cons_inj c).mpr (ih h)

/-- A cut of a text's bytes that is UTF-8 is a cut of the text. -/
theorem prefix_of_extract {q s : List Char} {k : Nat}
    (h : (textBytes s).extract 0 k = textBytes q) : q <+: s := by
  rw [textBytes_eq, textBytes_eq] at h
  refine prefix_of_utf8Encode_append (b := s.utf8Encode.extract k s.utf8Encode.size) ?_
  rw [← h, ByteArray.extract_append_extract, Nat.min_eq_left (Nat.zero_le k)]
  exact ByteArray.extract_zero_max_size.symm

end SrcControl.LineText
