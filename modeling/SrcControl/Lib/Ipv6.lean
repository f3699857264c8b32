import Mathlib.Data.List.TakeWhile
import Mathlib.Tactic.Common

/-!
# IPv6 addresses as text

The text forms that `Ipv6Addr` of the standard library reads, and the one form in which it shows an
address: eight groups in lower-case hexadecimal, the longest run of zero groups left out, and an
IPv4-mapped address with its last four bytes in decimal.
-/

namespace SrcControl.Ipv6

/-- An address, as its eight groups. -/
abbrev Addr := { groups : List UInt16 // groups.length = 8 }

/-! ## Showing -/

def hexChar (d : Nat) : Char := "0123456789abcdef".toList.getD d '0'

/-- `{g:x}`. -/
def showHex (g : UInt16) : List Char :=
  let n := g.toNat
  if n < 16 then [hexChar n]
  else if n < 256 then [hexChar (n / 16), hexChar (n % 16)]
  else if n < 4096 then [hexChar (n / 256), hexChar (n / 16 % 16), hexChar (n % 16)]
  else [hexChar (n / 4096), hexChar (n / 256 % 16), hexChar (n / 16 % 16), hexChar (n % 16)]

def showByte (n : Nat) : List Char := Nat.toDigits 10 n

/-- The groups of a part of an address, with colons between them. -/
def showGroups (gs : List UInt16) : List Char := [':'].intercalate (gs.map showHex)

def showV4 (a b : UInt16) : List Char :=
  ['.'].intercalate
    ([a.toNat / 256, a.toNat % 256, b.toNat / 256, b.toNat % 256].map showByte)

/-- The start and the length of a run of zero groups. -/
structure Span where
  start : Nat
  len : Nat
deriving DecidableEq

structure Zeros where
  longest : Span
  current : Span
deriving DecidableEq

def Zeros.step (z : Zeros) (i : Nat) (g : UInt16) : Zeros :=
  if g = 0 then
    let current := ⟨if z.current.len = 0 then i else z.current.start, z.current.len + 1⟩
    ⟨if z.longest.len < current.len then current else z.longest, current⟩
  else ⟨z.longest, ⟨0, 0⟩⟩

/-- The first of the longest runs of zero groups. -/
def zeroes (gs : List UInt16) : Span :=
  (gs.zipIdx.foldl (fun (z : Zeros) (x : UInt16 × Nat) => z.step x.2 x.1) ⟨⟨0, 0⟩, ⟨0, 0⟩⟩).longest

/-- `Ipv6Addr::to_string`. -/
def display (a : Addr) : List Char :=
  match a.val with
  | [0, 0, 0, 0, 0, 0xffff, x, y] => "::ffff:".toList ++ showV4 x y
  | gs =>
    let z := zeroes gs
    if 1 < z.len then
      showGroups (gs.take z.start) ++ [':', ':'] ++ showGroups (gs.drop (z.start + z.len))
    else showGroups gs

/-! ## Reading -/

/-- A parser takes what it reads off the text, or leaves all of it. -/
abbrev Parser (α : Type) := List Char → Option (α × List Char)

def toDigit (radix : Nat) (c : Char) : Option Nat :=
  let v := if '0' ≤ c ∧ c ≤ '9' then c.toNat - 48
    else if 'a' ≤ c ∧ c ≤ 'f' then c.toNat - 87
    else if 'A' ≤ c ∧ c ≤ 'F' then c.toNat - 55
    else 36
  if v < radix then some v else none

def isDigit (radix : Nat) (c : Char) : Bool := (toDigit radix c).isSome

/-- At most `most` digits, whose value stays below `bound`. -/
def readNumber (radix most bound : Nat) (zeroPrefix : Bool) : Parser Nat := fun s =>
  let digits := s.takeWhile (isDigit radix)
  let value := digits.foldl (fun n c => n * radix + (toDigit radix c).getD 0) 0
  if digits = [] ∨ most < digits.length ∨
      (!zeroPrefix && digits.head? == some '0' && 1 < digits.length) ∨ bound ≤ value then none
  else some (value, s.drop digits.length)

/-- Every element of a sequence but the first stands behind the separator. -/
def readSeparator {α : Type} (sep : Char) (index : Nat) (inner : Parser α) : Parser α := fun s =>
  if index = 0 then inner s
  else match s with
    | c :: rest => if c = sep then inner rest else none
    | [] => none

def readV4 : Parser (UInt16 × UInt16) := fun s => do
  let (a, s) ← readSeparator '.' 0 (readNumber 10 3 256 false) s
  let (b, s) ← readSeparator '.' 1 (readNumber 10 3 256 false) s
  let (c, s) ← readSeparator '.' 2 (readNumber 10 3 256 false) s
  let (d, s) ← readSeparator '.' 3 (readNumber 10 3 256 false) s
  pure ((UInt16.ofNat (a * 256 + b), UInt16.ofNat (c * 256 + d)), s)

/-- The groups up to a limit, and whether the last two are an IPv4 address. `left` groups may still
be read, `index` have been. -/
def readGroups : Nat → Nat → List Char → List UInt16 × Bool × List Char
  | 0, _, s => ([], false, s)
  | left + 1, index, s =>
    match if left = 0 then none else readSeparator ':' index readV4 s with
    | some ((x, y), rest) => ([x, y], true, rest)
    | none =>
      match readSeparator ':' index (readNumber 16 4 65536 true) s with
      | some (g, rest) =>
        let (gs, v4, rest) := readGroups left (index + 1) rest
        (UInt16.ofNat g :: gs, v4, rest)
      | none => ([], false, s)

def readV6 : Parser Addr := fun s =>
  let (head, headV4, s) := readGroups 8 0 s
  if h : head.length = 8 then some (⟨head, h⟩, s)
  else if headV4 then none
  else match s with
    | ':' :: ':' :: s =>
      let (tail, _, s) := readGroups (8 - (head.length + 1)) 0 s
      let groups := head ++ List.replicate (8 - head.length - tail.length) 0 ++ tail
      if h : groups.length = 8 then some (⟨groups, h⟩, s) else none
    | _ => none

/-- `str::parse::<Ipv6Addr>`: the whole text is one address. -/
def parse (s : List Char) : Option Addr :=
  match readV6 s with
  | some (a, []) => some a
  | _ => none

/-! ## Numbers -/

theorem toDigit_hexChar : ∀ d < 16, toDigit 16 (hexChar d) = some d := by decide

/-- The characters of a group. -/
def IsHex (c : Char) : Prop := ∃ d < 16, c = hexChar d

theorem IsHex.isDigit {c : Char} (h : IsHex c) : isDigit 16 c = true := by
  obtain ⟨d, hd, rfl⟩ := h
  rw [Ipv6.isDigit, toDigit_hexChar d hd]
  rfl

theorem IsHex.ne {c : Char} (h : IsHex c) : c ≠ ':' ∧ c ≠ '.' := by
  obtain ⟨d, hd, rfl⟩ := h
  revert d
  decide

theorem showHex_isHex (g : UInt16) {c : Char} (h : c ∈ showHex g) : IsHex c := by
  have hg := g.toNat_lt
  unfold showHex at h
  dsimp only at h
  split_ifs at h <;> simp only [List.mem_cons, List.not_mem_nil, or_false] at h
  · exact ⟨_, by omega, h⟩
  · rcases h with h | h <;> exact ⟨_, by omega, h⟩
  · rcases h with h | h | h <;> exact ⟨_, by omega, h⟩
  · rcases h with h | h | h | h <;> exact ⟨_, by omega, h⟩

theorem showHex_spec (g : UInt16) : showHex g ≠ [] ∧ (showHex g).length ≤ 4 ∧
    (showHex g).foldl (fun n c => n * 16 + (toDigit 16 c).getD 0) 0 = g.toNat := by
  have hg := g.toNat_lt
  unfold showHex
  dsimp only
  split_ifs
  · simp [toDigit_hexChar, *]
  · refine ⟨by simp, by simp, ?_⟩
    simp (disch := omega) only [List.foldl_cons, List.foldl_nil, toDigit_hexChar, Option.getD_some]
    omega
  · refine ⟨by simp, by simp, ?_⟩
    simp (disch := omega) only [List.foldl_cons, List.foldl_nil, toDigit_hexChar, Option.getD_some]
    omega
  · refine ⟨by simp, by simp, ?_⟩
    simp (disch := omega) only [List.foldl_cons, List.foldl_nil, toDigit_hexChar, Option.getD_some]
    omega

/-- What the digits run into. -/
def Ends (radix : Nat) (rest : List Char) : Prop := ∀ c ∈ rest.head?, isDigit radix c = false

theorem takeWhile_digits {radix : Nat} {ds rest : List Char} (h : ∀ c ∈ ds, isDigit radix c = true)
    (hr : Ends radix rest) : (ds ++ rest).takeWhile (isDigit radix) = ds := by
  rw [List.takeWhile_append_of_pos h]
  cases rest with
  | nil => simp
  | cons c rest => rw [List.takeWhile_cons_of_neg (by simp [hr c rfl]), List.append_nil]

theorem readNumber_hex (g : UInt16) {rest : List Char} (hr : Ends 16 rest) :
    readNumber 16 4 65536 true (showHex g ++ rest) = some (g.toNat, rest) := by
  obtain ⟨hne, hlen, hval⟩ := showHex_spec g
  have hg := g.toNat_lt
  unfold readNumber
  rw [takeWhile_digits (fun c hc => (showHex_isHex g hc).isDigit) hr]
  simp only [hval]
  rw [if_neg (by simp [hne]; omega), List.drop_left]

theorem showByte_digits : ∀ n < 256, (showByte n).all (isDigit 10) = true := by decide +kernel

theorem showByte_value : ∀ n < 256, showByte n ≠ [] ∧ (showByte n).length ≤ 3 ∧
    (showByte n).foldl (fun n c => n * 10 + (toDigit 10 c).getD 0) 0 = n ∧
    ((showByte n).head? == some '0' && decide (1 < (showByte n).length)) = false := by
  decide +kernel

theorem showByte_spec (n : Nat) (h : n < 256) : showByte n ≠ [] ∧ (showByte n).length ≤ 3 ∧
    (∀ c ∈ showByte n, isDigit 10 c = true) ∧
    (showByte n).foldl (fun n c => n * 10 + (toDigit 10 c).getD 0) 0 = n ∧
    ((showByte n).head? == some '0' && decide (1 < (showByte n).length)) = false := by
  obtain ⟨hne, hlen, hvalue, hzero⟩ := showByte_value n h
  exact ⟨hne, hlen, List.all_eq_true.mp (showByte_digits n h), hvalue, hzero⟩

theorem readNumber_byte {n : Nat} (h : n < 256) {rest : List Char} (hr : Ends 10 rest) :
    readNumber 10 3 256 false (showByte n ++ rest) = some (n, rest) := by
  obtain ⟨hne, hlen, hdigits, hval, hzero⟩ := showByte_spec n h
  unfold readNumber
  rw [takeWhile_digits hdigits hr]
  simp only [hval, Bool.not_false, Bool.true_and]
  rw [if_neg (by rw [hzero]; simp [hne]; omega), List.drop_left]

theorem readNumber_none {radix most bound : Nat} {zeros : Bool} {s : List Char}
    (h : Ends radix s) : readNumber radix most bound zeros s = none := by
  have hdigits : s.takeWhile (isDigit radix) = [] := by
    simpa using @takeWhile_digits _ [] _ (by simp) h
  unfold readNumber
  rw [hdigits]
  rfl

theorem readSeparator_first {α : Type} (sep : Char) (inner : Parser α) (s : List Char) :
    readSeparator sep 0 inner s = inner s := rfl

theorem readSeparator_next {α : Type} (sep : Char) (i : Nat) (inner : Parser α) (s : List Char) :
    readSeparator sep (i + 1) inner (sep :: s) = inner s := by
  simp [readSeparator]

theorem readSeparator_none {α : Type} {sep : Char} {i : Nat} {inner : Parser α} {s : List Char}
    (h : s.head? ≠ some sep) : readSeparator sep (i + 1) inner s = none := by
  cases s with
  | nil => rfl
  | cons c s =>
    have hc : c ≠ sep := fun he => h (by rw [he]; rfl)
    simp [readSeparator, hc]

/-! ## An IPv4 address in the last groups -/

theorem readV4_show (x y : UInt16) : readV4 (showV4 x y) = some ((x, y), []) := by
  have hx := x.toNat_lt
  have hy := y.toNat_lt
  have hdot : ∀ rest, Ends 10 ('.' :: rest) := by
    rintro rest c hc
    cases hc
    decide
  have hnil : Ends 10 [] := by
    rintro c hc
    cases hc
  have hshow : showV4 x y = showByte (x.toNat / 256) ++ '.' :: (showByte (x.toNat % 256) ++
      '.' :: (showByte (y.toNat / 256) ++ '.' :: (showByte (y.toNat % 256) ++ []))) := by
    simp [showV4, List.intercalate]
  have hsum : ∀ z : UInt16, UInt16.ofNat (z.toNat / 256 * 256 + z.toNat % 256) = z := by
    intro z
    rw [Nat.div_add_mod']
    simp
  rw [hshow]
  simp only [readV4, readSeparator_first, readSeparator_next, bind, Option.bind,
    readNumber_byte (show x.toNat / 256 < 256 by omega) (hdot _),
    readNumber_byte (show x.toNat % 256 < 256 by omega) (hdot _),
    readNumber_byte (show y.toNat / 256 < 256 by omega) (hdot _),
    readNumber_byte (show y.toNat % 256 < 256 by omega) hnil, hsum]
  rfl

/-- What follows a group in the text of an address. -/
def Behind (rest : List Char) : Prop := ∀ c ∈ rest.head?, c = ':'

theorem Behind.ends {rest : List Char} (h : Behind rest) {radix : Nat} (hr : radix = 16 ∨ radix = 10) :
    Ends radix rest := by
  intro c hc
  obtain rfl := h c hc
  rcases hr with rfl | rfl <;> decide

theorem readNumber_rest {radix most bound n : Nat} {zeros : Bool} {s rest : List Char}
    (h : readNumber radix most bound zeros s = some (n, rest)) :
    rest = s.dropWhile (isDigit radix) := by
  unfold readNumber at h
  dsimp only at h
  split_ifs at h
  cases h
  conv_lhs => rw [← List.takeWhile_append_dropWhile (p := isDigit radix) (l := s)]
  rw [List.drop_left']
  rw [List.takeWhile_append_dropWhile]

theorem dropWhile_group (g : UInt16) {rest : List Char} (hr : Behind rest) :
    ((showHex g ++ rest).dropWhile (isDigit 10)).head? ≠ some '.' := by
  rw [List.dropWhile_append]
  split_ifs with hnil
  · cases rest with
    | nil => simp
    | cons c rest =>
      obtain rfl := hr c rfl
      rw [List.dropWhile_cons_of_neg (by decide)]
      simp
  · intro hhead
    rw [List.isEmpty_iff] at hnil
    obtain ⟨c, cs, hcs⟩ := List.exists_cons_of_ne_nil hnil
    rw [hcs, List.cons_append, List.head?_cons, Option.some.injEq] at hhead
    have hmem : c ∈ showHex g := (List.dropWhile_sublist _).subset (by rw [hcs]; simp)
    exact (showHex_isHex g hmem).ne.2 hhead

/-- A group is not taken for the first byte of an IPv4 address. -/
theorem readV4_group (g : UInt16) {rest : List Char} (hr : Behind rest) :
    readV4 (showHex g ++ rest) = none := by
  unfold readV4
  cases hn : readNumber 10 3 256 false (showHex g ++ rest) with
  | none => rw [readSeparator_first, hn]; rfl
  | some x =>
    obtain ⟨a, s⟩ := x
    have hs : s.head? ≠ some '.' := by
      rw [readNumber_rest hn]
      exact dropWhile_group g hr
    rw [readSeparator_first, hn]
    simp only [bind, Option.bind, readSeparator_none hs]

/-! ## Groups -/

/-- Groups behind others. -/
def tailText (gs : List UInt16) : List Char := gs.flatMap fun g => ':' :: showHex g

theorem showGroups_cons (g : UInt16) (gs : List UInt16) :
    showGroups (g :: gs) = showHex g ++ tailText gs := by
  induction gs generalizing g with
  | nil => simp [showGroups, tailText, List.intercalate]
  | cons g' gs ih =>
    have hstep : showGroups (g :: g' :: gs) = showHex g ++ ':' :: showGroups (g' :: gs) := by
      simp [showGroups, List.intercalate]
    rw [hstep, ih]
    simp [tailText]

theorem tailText_cons (g : UInt16) (gs : List UInt16) :
    tailText (g :: gs) = ':' :: (showHex g ++ tailText gs) := rfl

/-- The text of a part of an address ends, or two colons follow. -/
def Stops (rest : List Char) : Prop := rest = [] ∨ ∃ tail, rest = ':' :: ':' :: tail

theorem Stops.behind {rest : List Char} (h : Stops rest) (gs : List UInt16) :
    Behind (tailText gs ++ rest) := by
  intro c hc
  cases gs with
  | nil =>
    rcases h with rfl | ⟨tail, rfl⟩
    · cases hc
    · cases hc
      rfl
  | cons g gs =>
    cases hc
    rfl

theorem Stops.readSeparator_none {α : Type} {rest : List Char} (h : Stops rest) (i : Nat)
    {inner : Parser α} (hin : ∀ s, Ends 16 s → Ends 10 s → inner s = none) :
    readSeparator ':' i inner rest = none := by
  have hcolon : ∀ tail, Ends 16 (':' :: tail) ∧ Ends 10 (':' :: tail) := fun tail =>
    ⟨Behind.ends (fun c hc => by cases hc; rfl) (.inl rfl),
      Behind.ends (fun c hc => by cases hc; rfl) (.inr rfl)⟩
  have hnil : ∀ radix, Ends radix [] := by
    intro radix c hc
    cases hc
  cases i with
  | zero =>
    rw [readSeparator_first]
    rcases h with rfl | ⟨tail, rfl⟩
    · exact hin _ (hnil 16) (hnil 10)
    · exact hin _ (hcolon _).1 (hcolon _).2
  | succ i =>
    rcases h with rfl | ⟨tail, rfl⟩
    · rfl
    · rw [readSeparator_next]
      exact hin _ (hcolon _).1 (hcolon _).2

theorem readV4_none {s : List Char} (h : Ends 10 s) : readV4 s = none := by
  rw [readV4, readSeparator_first, readNumber_none h]
  rfl

theorem readGroups_stops {rest : List Char} (h : Stops rest) (left i : Nat) :
    readGroups left i rest = ([], false, rest) := by
  cases left with
  | zero => rfl
  | succ left =>
    have h4 : readSeparator ':' i readV4 rest = none :=
      h.readSeparator_none i fun s _ h10 => readV4_none h10
    have h6 : readSeparator ':' i (readNumber 16 4 65536 true) rest = none :=
      h.readSeparator_none i fun s h16 _ => readNumber_none h16
    rw [readGroups, h4, h6]
    simp

/-- One group, with the separator that its place asks for. -/
theorem readGroups_group {left i : Nat} {s rest : List Char} {g : UInt16} (hr : Behind rest)
    (hs : ∀ {α : Type} (inner : Parser α),
      readSeparator ':' i inner s = inner (showHex g ++ rest)) :
    readGroups (left + 1) i s =
      (g :: (readGroups left (i + 1) rest).1, (readGroups left (i + 1) rest).2) := by
  have h6 := readNumber_hex g (hr.ends (.inl rfl))
  rw [readGroups, hs, hs, readV4_group g hr, h6]
  simp

theorem readGroups_tail {gs : List UInt16} {left i : Nat} {rest : List Char}
    (hleft : gs.length ≤ left) (hr : Stops rest) :
    readGroups left (i + 1) (tailText gs ++ rest) = (gs, false, rest) := by
  induction gs generalizing left i with
  | nil => exact readGroups_stops hr left (i + 1)
  | cons g gs ih =>
    obtain ⟨left, rfl⟩ := Nat.exists_eq_add_of_le' (Nat.one_le_of_lt hleft)
    rw [readGroups_group (hr.behind gs) (g := g) fun inner => by
      rw [tailText_cons, List.cons_append, readSeparator_next, List.append_assoc],
      ih (Nat.le_of_succ_le_succ hleft)]

theorem readGroups_show {gs : List UInt16} {left : Nat} {rest : List Char}
    (hleft : gs.length ≤ left) (hr : Stops rest) :
    readGroups left 0 (showGroups gs ++ rest) = (gs, false, rest) := by
  cases gs with
  | nil => exact readGroups_stops hr left 0
  | cons g gs =>
    obtain ⟨left, rfl⟩ := Nat.exists_eq_add_of_le' (Nat.one_le_of_lt hleft)
    rw [readGroups_group (hr.behind gs) (g := g) fun inner => by
      rw [showGroups_cons, readSeparator_first, List.append_assoc],
      readGroups_tail (Nat.le_of_succ_le_succ hleft) hr]

/-! ## The run of zero groups -/

/-- The groups from the start of the run on are zero. -/
def Span.Zero (z : Span) (gs : List UInt16) : Prop :=
  z.start + z.len ≤ gs.length ∧ (gs.drop z.start).take z.len = List.replicate z.len 0

/-- What the search keeps: both runs are zero, and the current one ends where the search stands. -/
structure Zeros.Good (z : Zeros) (gs : List UInt16) : Prop where
  longest : z.longest.Zero gs
  current : z.current.Zero gs
  ends : z.current.len ≠ 0 → z.current.start + z.current.len = gs.length

theorem Span.Zero.append {z : Span} {gs : List UInt16} (h : z.Zero gs) (g : UInt16) :
    z.Zero (gs ++ [g]) := by
  obtain ⟨hle, hzero⟩ := h
  refine ⟨by simp; omega, ?_⟩
  rw [List.drop_append_of_le_length (by omega), List.take_append_of_le_length (by simp; omega),
    hzero]

theorem Zeros.Good.step {z : Zeros} {gs : List UInt16} (h : z.Good gs) (g : UInt16) :
    (z.step gs.length g).Good (gs ++ [g]) := by
  by_cases hg : g = 0
  · subst hg
    rw [Zeros.step, if_pos rfl]
    have hcurrent : Span.Zero ⟨if z.current.len = 0 then gs.length else z.current.start,
        z.current.len + 1⟩ (gs ++ [0]) := by
      obtain ⟨hle, hzero⟩ := h.current
      by_cases hlen : z.current.len = 0
      · rw [if_pos hlen, hlen]
        exact ⟨by simp, by simp⟩
      · have hend := h.ends hlen
        rw [if_neg hlen]
        refine ⟨by simp; omega, ?_⟩
        dsimp only
        rw [List.drop_append_of_le_length (by omega), List.replicate_succ', ← hzero,
          List.take_of_length_le (by simp; omega), List.take_of_length_le (by simp; omega)]
    refine ⟨?_, hcurrent, fun _ => ?_⟩
    · dsimp only
      by_cases hlt : z.longest.len < z.current.len + 1
      · rw [if_pos hlt]
        exact hcurrent
      · rw [if_neg hlt]
        exact h.longest.append 0
    · dsimp only
      split_ifs with hlen
      · simp [hlen]
      · have := h.ends hlen
        simp
        omega
  · rw [Zeros.step, if_neg hg]
    exact ⟨h.longest.append g, ⟨by simp, by simp⟩, fun hne => absurd rfl hne⟩

theorem zeroes_zero (gs : List UInt16) : (zeroes gs).Zero gs := by
  have hrun : ∀ (todo done : List UInt16) (z : Zeros), z.Good done →
      ((todo.zipIdx done.length).foldl (fun (z : Zeros) (x : UInt16 × Nat) => z.step x.2 x.1)
        z).Good (done ++ todo) := by
    intro todo
    induction todo with
    | nil =>
      intro done z h
      simpa using h
    | cons g todo ih =>
      intro done z h
      have hstep := ih (done ++ [g]) _ (h.step g)
      rw [List.length_append, List.length_singleton, List.append_assoc] at hstep
      exact hstep
  have hstart : Zeros.Good ⟨⟨0, 0⟩, ⟨0, 0⟩⟩ [] :=
    ⟨⟨Nat.le_refl 0, rfl⟩, ⟨Nat.le_refl 0, rfl⟩, fun hne => absurd rfl hne⟩
  exact (hrun gs [] _ hstart).longest

theorem Span.Zero.split {z : Span} {gs : List UInt16} (h : z.Zero gs) :
    gs = gs.take z.start ++ List.replicate z.len 0 ++ gs.drop (z.start + z.len) := by
  rw [← h.2, List.append_assoc, ← List.drop_drop, List.take_append_drop, List.take_append_drop]

/-! ## Reading what is shown -/

theorem display_eq (a : Addr) :
    (∃ x y, a.val = [0, 0, 0, 0, 0, 0xffff, x, y] ∧ display a = "::ffff:".toList ++ showV4 x y) ∨
    (∃ head tail, ∃ n, 1 < n ∧ a.val = head ++ List.replicate n 0 ++ tail ∧
      display a = showGroups head ++ ':' :: ':' :: showGroups tail) ∨
    display a = showGroups a.val := by
  unfold display
  split
  · next x y heq => exact .inl ⟨x, y, heq, rfl⟩
  · dsimp only
    split_ifs with hlen
    · exact .inr (.inl ⟨_, _, _, hlen, (zeroes_zero a.val).split, by simp⟩)
    · exact .inr (.inr rfl)

/-- A head that is not whole, two colons and a tail. -/
theorem readV6_split {head tail : List UInt16} {v4 : Bool} {s : List Char} (text : List Char)
    (hlen : head.length + tail.length < 8)
    (hhead : readGroups 8 0 text = (head, false, ':' :: ':' :: s))
    (htail : readGroups (8 - (head.length + 1)) 0 s = (tail, v4, [])) :
    readV6 text = some (⟨head ++ List.replicate (8 - head.length - tail.length) 0 ++ tail,
      by simp; omega⟩, []) := by
  have hne : head.length ≠ 8 := by omega
  unfold readV6
  rw [hhead]
  simp only [hne, dite_false, htail]
  rw [dif_pos (by simp; omega)]
  simp

theorem parse_display (a : Addr) : parse (display a) = some a := by
  obtain ⟨gs, h8⟩ := a
  have hend : Stops [] := .inl rfl
  rcases display_eq ⟨gs, h8⟩ with ⟨x, y, heq, hshow⟩ | ⟨head, tail, n, hn, heq, hshow⟩ | hshow
  · change gs = _ at heq
    subst heq
    have hcolons : Stops (':' :: ':' :: ("ffff:".toList ++ showV4 x y)) := .inr ⟨_, rfl⟩
    have htail : readGroups 7 0 ("ffff:".toList ++ showV4 x y) = ([0xffff, x, y], true, []) := by
      have hbehind : Behind (':' :: showV4 x y) := fun c hc => by cases hc; rfl
      have htext : "ffff:".toList ++ showV4 x y = showHex 0xffff ++ ':' :: showV4 x y := rfl
      rw [htext, readGroups_group hbehind (fun inner => readSeparator_first ':' inner _), readGroups]
      rw [readSeparator_next, readV4_show]
      rfl
    have htext : "::ffff:".toList ++ showV4 x y = ':' :: ':' :: ("ffff:".toList ++ showV4 x y) :=
      rfl
    rw [hshow, htext, parse, readV6_split _ (by simp) (readGroups_stops hcolons 8 0) htail]
    rfl
  · change gs = _ at heq
    have hsum : head.length + n + tail.length = 8 := by
      rw [heq] at h8
      simpa [Nat.add_assoc] using h8
    have hcolons : Stops (':' :: ':' :: showGroups tail) := .inr ⟨_, rfl⟩
    have hhead := @readGroups_show head 8 _ (by omega) hcolons
    have htail := @readGroups_show tail (8 - (head.length + 1)) _ (by omega) hend
    rw [List.append_nil] at htail
    rw [hshow, parse, readV6_split _ (by omega) hhead htail]
    simp only [Option.some.injEq, Subtype.mk.injEq]
    rw [heq, show 8 - head.length - tail.length = n by omega]
  · have hread := @readGroups_show gs 8 _ (Nat.le_of_eq h8) hend
    rw [List.append_nil] at hread
    rw [hshow, parse, readV6, hread]
    simp [h8]

/-! ## The characters of an address -/

/-- What stands in the text of an address. -/
def Allowed (c : Char) : Prop := isDigit 16 c = true ∨ c = ':' ∨ c = '.'

theorem digit_range {c : Char} (h : isDigit 16 c = true) : 48 ≤ c.toNat ∧ c.toNat ≤ 102 := by
  have hle : ∀ a b : Char, a ≤ b → a.toNat ≤ b.toNat := fun a b hab => hab
  by_cases h1 : '0' ≤ c ∧ c ≤ '9'
  · exact ⟨hle _ _ h1.1, (hle _ _ h1.2).trans (by decide)⟩
  by_cases h2 : 'a' ≤ c ∧ c ≤ 'f'
  · exact ⟨(by decide : 48 ≤ 'a'.toNat).trans (hle _ _ h2.1), hle _ _ h2.2⟩
  by_cases h3 : 'A' ≤ c ∧ c ≤ 'F'
  · exact ⟨(by decide : 48 ≤ 'A'.toNat).trans (hle _ _ h3.1), (hle _ _ h3.2).trans (by decide)⟩
  rw [isDigit, toDigit, if_neg h1, if_neg h2, if_neg h3] at h
  cases h

theorem allowed_range {c : Char} (h : Allowed c) : 46 ≤ c.toNat ∧ c.toNat ≤ 102 := by
  rcases h with h | rfl | rfl
  · have := digit_range h
    omega
  · decide
  · decide

theorem display_allowed (a : Addr) : ∀ c ∈ display a, Allowed c := by
  have hhex : ∀ gs : List UInt16, ∀ c ∈ showGroups gs, Allowed c := by
    intro gs c hc
    cases gs with
    | nil => simp [showGroups, List.intercalate] at hc
    | cons g gs =>
      rw [showGroups_cons] at hc
      rcases List.mem_append.mp hc with hc | hc
      · exact .inl (showHex_isHex g hc).isDigit
      · obtain ⟨g', -, hc⟩ := List.mem_flatMap.mp hc
        rcases List.mem_cons.mp hc with rfl | hc
        · exact .inr (.inl rfl)
        · exact .inl (showHex_isHex g' hc).isDigit
  have hall : ∀ n < 256, (showByte n).all (isDigit 16) = true := by decide +kernel
  have hbyte : ∀ n < 256, ∀ c ∈ showByte n, isDigit 16 c = true :=
    fun n hn => List.all_eq_true.mp (hall n hn)
  intro c hc
  rcases display_eq a with ⟨x, y, -, hshow⟩ | ⟨head, tail, n, -, -, hshow⟩ | hshow
  · have hx := x.toNat_lt
    have hy := y.toNat_lt
    have hprefix : ∀ c ∈ "::ffff:".toList, isDigit 16 c = true ∨ c = ':' ∨ c = '.' := by
      have hall : "::ffff:".toList.all (fun c => isDigit 16 c || c == ':' || c == '.') = true := rfl
      intro c hc
      have hc' := List.all_eq_true.mp hall c hc
      simpa [or_assoc] using hc'
    rw [hshow] at hc
    rcases List.mem_append.mp hc with hc | hc
    · exact hprefix c hc
    · simp only [showV4, List.intercalate, List.map_cons, List.map_nil, List.intersperse_cons_cons,
        List.intersperse_singleton, List.flatten_cons, List.flatten_nil, List.append_nil,
        List.mem_append, List.mem_singleton] at hc
      rcases hc with hc | hc | hc | hc | hc | hc | hc
      all_goals first
        | exact .inr (.inr hc)
        | exact .inl (hbyte _ (by omega) c hc)
  · rw [hshow] at hc
    rcases List.mem_append.mp hc with hc | hc
    · exact hhex head c hc
    · rcases List.mem_cons.mp hc with rfl | hc
      · exact .inr (.inl rfl)
      · rcases List.mem_cons.mp hc with rfl | hc
        · exact .inr (.inl rfl)
        · exact hhex tail c hc
  · rw [hshow] at hc
    exact hhex _ c hc

/-- Every address shows a colon. -/
theorem colon_mem_display (a : Addr) : ':' ∈ display a := by
  rcases display_eq a with ⟨x, y, -, hshow⟩ | ⟨head, tail, n, -, -, hshow⟩ | hshow
  · rw [hshow]
    exact List.mem_append_left _ (by decide)
  · rw [hshow]
    simp
  · obtain ⟨gs, h8⟩ := a
    rw [hshow]
    match gs, h8 with
    | g :: g' :: gs, _ =>
      rw [showGroups_cons, tailText_cons]
      simp

/-- The parser reads on over characters of an address only. -/
def Takes {α : Type} (p : Parser α) : Prop :=
  ∀ s x rest, p s = some (x, rest) → ∃ used, s = used ++ rest ∧ ∀ c ∈ used, Allowed c

theorem isDigit_mono {c : Char} (h : isDigit 10 c = true) : isDigit 16 c = true := by
  unfold isDigit toDigit at h ⊢
  dsimp only at h ⊢
  split_ifs at h ⊢ <;> simp_all <;> omega

theorem readNumber_takes {radix most bound : Nat} {zeros : Bool} (hr : radix = 16 ∨ radix = 10) :
    Takes (readNumber radix most bound zeros) := by
  intro s x rest h
  refine ⟨s.takeWhile (isDigit radix), ?_, fun c hc => .inl ?_⟩
  · rw [readNumber_rest h, List.takeWhile_append_dropWhile]
  · have hd : isDigit radix c = true := List.mem_takeWhile_imp hc
    rcases hr with rfl | rfl
    · exact hd
    · exact isDigit_mono hd

theorem readSeparator_takes {α : Type} {sep : Char} {i : Nat} {inner : Parser α}
    (hsep : sep = ':' ∨ sep = '.') (h : Takes inner) : Takes (readSeparator sep i inner) := by
  intro s x rest hread
  unfold readSeparator at hread
  split_ifs at hread
  · exact h s x rest hread
  · cases s with
    | nil => cases hread
    | cons c s =>
      dsimp only at hread
      split_ifs at hread with hc
      subst hc
      obtain ⟨used, rfl, hused⟩ := h s x rest hread
      refine ⟨c :: used, rfl, fun d hd => ?_⟩
      rcases List.mem_cons.mp hd with rfl | hd
      · exact .inr hsep
      · exact hused d hd

theorem Takes.then {α : Type} {p : Parser α} {s s' rest : List Char} {x : α}
    (hp : Takes p) (h : p s = some (x, s'))
    (hrest : ∃ used, s' = used ++ rest ∧ ∀ c ∈ used, Allowed c) :
    ∃ used, s = used ++ rest ∧ ∀ c ∈ used, Allowed c := by
  obtain ⟨used, rfl, hused⟩ := hp s x s' h
  obtain ⟨used', rfl, hused'⟩ := hrest
  refine ⟨used ++ used', (List.append_assoc _ _ _).symm, fun c hc => ?_⟩
  rcases List.mem_append.mp hc with hc | hc
  · exact hused c hc
  · exact hused' c hc

theorem readV4_takes : Takes readV4 := by
  have hnumber : ∀ i, Takes (readSeparator '.' i (readNumber 10 3 256 false)) := fun i =>
    readSeparator_takes (.inr rfl) (readNumber_takes (.inr rfl))
  intro s x rest h
  unfold readV4 at h
  simp only [bind, Option.bind_eq_some_iff, pure, Option.some.injEq, Prod.mk.injEq] at h
  obtain ⟨⟨a, s1⟩, h1, ⟨b, s2⟩, h2, ⟨c, s3⟩, h3, ⟨d, s4⟩, h4, -, rfl⟩ := h
  exact (hnumber 0).then h1 ((hnumber 1).then h2 ((hnumber 2).then h3 (hnumber 3 _ _ _ h4)))

theorem readGroups_takes (left i : Nat) (s : List Char) :
    ∃ used, s = used ++ (readGroups left i s).2.2 ∧ ∀ c ∈ used, Allowed c := by
  induction left generalizing i s with
  | zero => exact ⟨[], rfl, by simp⟩
  | succ left ih =>
    rw [readGroups]
    split
    · next x y rest h =>
      split_ifs at h
      exact readSeparator_takes (.inl rfl) readV4_takes _ _ _ h
    · split
      · next g rest h =>
        exact (readSeparator_takes (.inl rfl) (readNumber_takes (.inl rfl))).then h (ih _ _)
      · exact ⟨[], rfl, by simp⟩

theorem parse_allowed {s : List Char} {a : Addr} (h : parse s = some a) : ∀ c ∈ s, Allowed c := by
  have hv6 : ∃ used, s = used ++ [] ∧ ∀ c ∈ used, Allowed c := by
    unfold parse at h
    split at h
    · next b hread =>
      obtain ⟨used, hs, hused⟩ := readGroups_takes 8 0 s
      unfold readV6 at hread
      dsimp only at hread
      split_ifs at hread with h8 h4
      · simp only [Option.some.injEq, Prod.mk.injEq] at hread
        rw [hread.2] at hs
        exact ⟨used, hs, hused⟩
      · split at hread
        · next s' heq =>
          split_ifs at hread
          simp only [Option.some.injEq, Prod.mk.injEq] at hread
          obtain ⟨used', hs', hused'⟩ :=
            readGroups_takes (8 - ((readGroups 8 0 s).1.length + 1)) 0 s'
          rw [hread.2, List.append_nil] at hs'
          refine ⟨used ++ ':' :: ':' :: used', by rw [hs, heq, hs']; simp, fun c hc => ?_⟩
          simp only [List.mem_append, List.mem_cons] at hc
          rcases hc with hc | hc | hc | hc
          · exact hused c hc
          · exact .inr (.inl hc)
          · exact .inr (.inl hc)
          · exact hused' c hc
        · cases hread
    · cases h
  obtain ⟨used, rfl, hused⟩ := hv6
  simpa using hused

end SrcControl.Ipv6
