import SrcControl.Lib.Glob
import SrcControl.Lib.WholeLines
import SrcControl.Lib.SlashPath
import SrcControl.Repo.Refs

/-!
# Ignore rules

The lines of an ignore file and what they match. A component is compared by cutting both texts at
byte lengths; no cut falls inside a character, and the answer is whether the component is one of
the words the pattern stands for. What matches a path matches every path below it.
-/

namespace SrcControl.IgnoreRules

open SlashPath
open LineText (lines stripLast)
open Glob (Matches InOrder FirstAt)

/-! ## Texts by bytes -/

/-- `s.len()`. -/
def byteLen (s : List Char) : Nat := (s.map Char.utf8Size).sum

/-- `s[i..]`; there is none when byte `i` lies inside a character or past the end. -/
def dropBytes : Nat → List Char → Option (List Char)
  | 0, s => some s
  | _ + 1, [] => none
  | i + 1, c :: s => if c.utf8Size ≤ i + 1 then dropBytes (i + 1 - c.utf8Size) s else none

/-- `s[..i]`. -/
def takeBytes : Nat → List Char → Option (List Char)
  | 0, _ => some []
  | _ + 1, [] => none
  | i + 1, c :: s =>
    if c.utf8Size ≤ i + 1 then (takeBytes (i + 1 - c.utf8Size) s).map (c :: ·) else none

/-- `s[i..j]`. -/
def slice (i j : Nat) (s : List Char) : Option (List Char) := do
  if j < i then none else takeBytes (j - i) (← dropBytes i s)

/-- `s.find(piece)`: the byte where the first occurrence starts. -/
def find (piece : List Char) : List Char → Option Nat
  | [] => if piece.isEmpty then some 0 else none
  | c :: s =>
    if piece.isPrefixOf (c :: s) then some 0 else (find piece s).map (c.utf8Size + ·)

@[simp] theorem byteLen_nil : byteLen [] = 0 := rfl

@[simp] theorem byteLen_cons (c : Char) (s : List Char) :
    byteLen (c :: s) = c.utf8Size + byteLen s := by
  simp [byteLen]

@[simp] theorem byteLen_append (s t : List Char) : byteLen (s ++ t) = byteLen s + byteLen t := by
  simp [byteLen]

theorem byteLen_eq_zero {s : List Char} (h : byteLen s = 0) : s = [] := by
  cases s with
  | nil => rfl
  | cons c s =>
    have hc := c.utf8Size_pos
    rw [byteLen_cons] at h
    omega

theorem dropBytes_append (s t : List Char) : dropBytes (byteLen s) (s ++ t) = some t := by
  induction s with
  | nil => simp [dropBytes]
  | cons c s ih =>
    obtain ⟨n, hn⟩ := Nat.exists_eq_add_one_of_ne_zero (c.utf8Size_pos.ne')
    have hlen : byteLen (c :: s) = (n + byteLen s) + 1 := by rw [byteLen_cons]; omega
    rw [hlen, List.cons_append, dropBytes, if_pos (by omega)]
    rw [show n + byteLen s + 1 - c.utf8Size = byteLen s by omega]
    exact ih

theorem takeBytes_append (s t : List Char) : takeBytes (byteLen s) (s ++ t) = some s := by
  induction s with
  | nil => simp [takeBytes]
  | cons c s ih =>
    obtain ⟨n, hn⟩ := Nat.exists_eq_add_one_of_ne_zero (c.utf8Size_pos.ne')
    have hlen : byteLen (c :: s) = (n + byteLen s) + 1 := by rw [byteLen_cons]; omega
    rw [hlen, List.cons_append, takeBytes, if_pos (by omega)]
    rw [show n + byteLen s + 1 - c.utf8Size = byteLen s by omega, ih]
    rfl

/-- A cut between characters on both sides takes what stands between them. -/
theorem slice_between (a s b : List Char) :
    slice (byteLen a) (byteLen a + byteLen s) (a ++ (s ++ b)) = some s := by
  rw [slice, if_neg (by omega), dropBytes_append, Option.bind_eq_bind, Option.bind_some,
    Nat.add_sub_cancel_left, takeBytes_append]

theorem find_some {piece s : List Char} {i : Nat} (h : find piece s = some i) :
    ∃ a b, FirstAt piece s a b ∧ i = byteLen a := by
  induction s generalizing i with
  | nil =>
    rw [find] at h
    split_ifs at h with hp
    cases h
    exact ⟨[], [], ⟨by simp [List.isEmpty_iff.mp hp], fun _ _ _ => Nat.zero_le _⟩, rfl⟩
  | cons c s ih =>
    rw [find] at h
    split_ifs at h with hp
    · cases h
      obtain ⟨b, hb⟩ := List.isPrefixOf_iff_prefix.mp hp
      exact ⟨[], b, ⟨hb.symm, fun _ _ _ => Nat.zero_le _⟩, rfl⟩
    · obtain ⟨j, hj, rfl⟩ := Option.map_eq_some_iff.mp h
      obtain ⟨a, b, ⟨hs, hfirst⟩, rfl⟩ := ih hj
      refine ⟨c :: a, b, ⟨by rw [hs]; rfl, fun a' b' h' => ?_⟩, (byteLen_cons c a).symm⟩
      cases a' with
      | nil => exact absurd (List.isPrefixOf_iff_prefix.mpr ⟨b', h'.symm⟩) hp
      | cons d a' => exact Nat.succ_le_succ (hfirst a' b' (List.cons.inj h').2)

theorem find_none {piece s : List Char} (h : find piece s = none) (a b : List Char) :
    s ≠ a ++ (piece ++ b) := by
  induction s generalizing a with
  | nil =>
    rw [find] at h
    split_ifs at h with hp
    intro he
    have hpiece := (List.append_eq_nil_iff.mp (List.append_eq_nil_iff.mp he.symm).2).1
    exact hp (List.isEmpty_iff.mpr hpiece)
  | cons c s ih =>
    rw [find] at h
    split_ifs at h with hp
    intro he
    cases a with
    | nil => exact hp (List.isPrefixOf_iff_prefix.mpr ⟨b, he.symm⟩)
    | cons d a => exact ih (Option.map_eq_none_iff.mp h) a (List.cons.inj he).2

/-! ## One component -/

/-- The middle pieces, each looked for in what the piece before it left. -/
def findPieces : List (List Char) → List Char → Option Bool
  | [], _ => some true
  | piece :: pieces, rest =>
    match find piece rest with
    | some i => do findPieces pieces (← dropBytes (i + byteLen piece) rest)
    | none => some false

/-- `glob_component`; `none` where a slice would cut a character in two. -/
def globSlices (pattern comp : List Char) : Option Bool :=
  if '*' ∉ pattern then some (pattern == comp)
  else
    let pieces := pattern.splitOn '*'
    let first := pieces.headD []
    let last := pieces.getLastD []
    if !first.isPrefixOf comp || byteLen comp < byteLen first + byteLen last ||
        !last.isSuffixOf comp then
      some false
    else do
      let rest ← slice (byteLen first) (byteLen comp - byteLen last) comp
      findPieces (pieces.drop 1).dropLast rest

/-- `glob_component`. -/
def globComponent (pattern comp : String) : Bool :=
  (globSlices pattern.toList comp.toList).getD false

open Classical in
theorem findPieces_eq (pieces : List (List Char)) (rest : List Char) :
    findPieces pieces rest = some (decide (InOrder pieces rest)) := by
  induction pieces generalizing rest with
  | nil => exact congrArg some (decide_eq_true (p := InOrder [] rest) trivial).symm
  | cons piece pieces ih =>
    rw [findPieces]
    cases hf : find piece rest with
    | none =>
      have hno : ¬InOrder (piece :: pieces) rest := by
        rintro ⟨a, b, hs, -⟩
        exact find_none hf a b hs
      simp [hno]
    | some i =>
      obtain ⟨a, b, hfirst, rfl⟩ := find_some hf
      have hdrop : dropBytes (byteLen a + byteLen piece) rest = some b := by
        rw [hfirst.1, ← byteLen_append, ← List.append_assoc]
        exact dropBytes_append _ _
      simp only [hdrop, Option.bind_eq_bind, Option.bind_some, ih, hfirst.inOrder_iff]

/-- A front and an end that do not overlap by bytes leave a middle between them. -/
theorem exists_middle {first last comp : List Char} (hfirst : first <+: comp)
    (hlast : last <:+ comp) (hlen : byteLen first + byteLen last ≤ byteLen comp) :
    ∃ mid, comp = first ++ (mid ++ last) := by
  obtain ⟨x, rfl⟩ := hfirst
  obtain ⟨y, hy⟩ := hlast
  have hbytes := congrArg byteLen hy
  simp only [byteLen_append] at hbytes hlen
  rcases List.append_eq_append_iff.mp hy with ⟨c, hc, hx⟩ | ⟨c, hc, hx⟩
  · -- the front reaches past the start of the end, so by no more than the empty text
    have hcl := congrArg byteLen hc
    rw [byteLen_append] at hcl
    have hnil : c = [] := byteLen_eq_zero (by omega)
    subst hnil
    exact ⟨[], by rw [List.nil_append, ← List.nil_append x, ← hx]⟩
  · exact ⟨c, by rw [hx]⟩

theorem pieces_split {pattern : List Char} (h : '*' ∈ pattern) :
    ∃ first mids last, pattern.splitOn '*' = first :: (mids ++ [last]) ∧
      pattern = first ++ (mids.flatMap ('*' :: ·) ++ '*' :: last) ∧
      '*' ∉ first ∧ (∀ m ∈ mids, '*' ∉ m) ∧ '*' ∉ last := by
  obtain ⟨first, rest, hs, hp⟩ := Glob.splitOn_pieces '*' pattern
  have hno : ∀ m ∈ first :: rest, '*' ∉ m := fun m hm => not_mem_splitOn (hs ▸ hm)
  have hne : rest ≠ [] := by
    rintro rfl
    rw [List.flatMap_nil, List.append_nil] at hp
    exact hno first List.mem_cons_self (hp ▸ h)
  obtain ⟨mids, last, rfl⟩ := List.eq_nil_or_concat' rest |>.resolve_left hne
  refine ⟨first, mids, last, hs, ?_, hno first List.mem_cons_self, fun m hm => hno m (by simp [hm]),
    hno last (by simp)⟩
  rw [hp, List.flatMap_append, List.flatMap_singleton]

open Classical in
/-- No slice cuts a character, and the component matches as a word of the pattern's language. -/
theorem globSlices_eq (pattern comp : List Char) :
    globSlices pattern comp = some (decide (Matches '*' pattern comp)) := by
  by_cases hstar : '*' ∉ pattern
  · rw [globSlices, if_pos hstar, Glob.matches_literal_iff hstar]
    simp [eq_comm, beq_eq_decide]
  · obtain ⟨first, mids, last, hs, hp, hf, hm, hl⟩ := pieces_split (not_not.mp hstar)
    rw [globSlices, if_neg hstar]
    have hhead : (pattern.splitOn '*').headD [] = first := by rw [hs]; rfl
    have hlast : (pattern.splitOn '*').getLastD [] = last := by
      rw [hs, ← List.cons_append, List.getLastD_concat]
    have hmid : ((pattern.splitOn '*').drop 1).dropLast = mids := by
      rw [hs]; simp
    have hiff := Glob.matches_pieces_iff (s := comp) hf hm hl
    rw [← hp] at hiff
    simp only [hhead, hlast, hmid]
    split_ifs with hends
    · have hno : ¬Matches '*' pattern comp := by
        rw [hiff]
        rintro ⟨mid, rfl, -⟩
        have hpre : first.isPrefixOf (first ++ (mid ++ last)) = true :=
          List.isPrefixOf_iff_prefix.mpr ⟨_, rfl⟩
        have hsuf : last.isSuffixOf (first ++ (mid ++ last)) = true :=
          List.isSuffixOf_iff_suffix.mpr ⟨first ++ mid, List.append_assoc _ _ _⟩
        simp only [hpre, hsuf, byteLen_append, Bool.not_true, Bool.or_false, Bool.false_or,
          decide_eq_true_eq] at hends
        omega
      simp [hno]
    · simp only [Bool.or_eq_true, Bool.not_eq_true', decide_eq_true_eq, not_or, not_lt,
        Bool.not_eq_false] at hends
      obtain ⟨mid, rfl⟩ := exists_middle (List.isPrefixOf_iff_prefix.mp hends.1.1)
        (List.isSuffixOf_iff_suffix.mp hends.2) hends.1.2
      have hend : byteLen (first ++ (mid ++ last)) - byteLen last =
          byteLen first + byteLen mid := by
        simp only [byteLen_append]
        omega
      have hiff' : Matches '*' pattern (first ++ (mid ++ last)) ↔ InOrder mids mid := by
        rw [hiff]
        constructor
        · rintro ⟨mid', he, h⟩
          rwa [List.append_cancel_right (List.append_cancel_left he)]
        · exact fun h => ⟨mid, rfl, h⟩
      simp only [hend, slice_between, Option.bind_eq_bind, Option.bind_some, findPieces_eq, hiff']

theorem globComponent_iff {pattern comp : String} :
    globComponent pattern comp = true ↔ Matches '*' pattern.toList comp.toList := by
  classical
  rw [globComponent, globSlices_eq, Option.getD_some, decide_eq_true_eq]

/-! ## Rules -/

/-- Pattern components split on `/`; a single one is unanchored. -/
structure Pattern where
  components : List String
  anchored : Bool

def Pattern.matches (pattern : Pattern) (path : List String) : Bool :=
  if pattern.anchored then
    pattern.components.length ≤ path.length &&
      (pattern.components.zip path).all (fun pc => globComponent pc.1 pc.2)
  else path.any (globComponent (pattern.components.headD ""))

abbrev Ignore := List Pattern

/-- One turn of the loop over the lines. -/
def parseLine (line : List Char) : Option Pattern :=
  let line := LineText.trim Refs.isWhitespace line
  if line.isEmpty || line.head? == some '#' then none
  else
    let line := stripLast '/' line
    if line.isEmpty then none
    else
      let components := split (String.ofList line)
      some ⟨components, components.length > 1⟩

def parse (text : List Char) : Ignore := (lines text).filterMap parseLine

/-- `load`: a missing file is the empty rule set. -/
def load : Option (List Char) → Ignore
  | none => []
  | some text => parse text

def Ignore.matches (ignore : Ignore) (rel : String) : Bool :=
  ignore.any (fun p => p.matches (split rel))

/-! ## What a rule matches -/

/-- The rule a line states, when it states one. -/
def ruleOf (line : List Char) : Option String :=
  let body := LineText.trim Refs.isWhitespace line
  if body = [] ∨ body.head? = some '#' ∨ stripLast '/' body = [] then none
  else some (String.ofList (stripLast '/' body))

/-- The rules of an ignore file; a missing file has none. -/
def rules : Option (List Char) → List String
  | none => []
  | some text => (lines text).filterMap ruleOf

/-- Without a slash a rule matches any component, with one it matches the leading components. -/
def RuleMatches (rule path : String) : Prop :=
  if '/' ∈ rule.toList then
    ∃ lead rest, split path = lead ++ rest ∧
      List.Forall₂ (fun p c : String => Matches '*' p.toList c.toList) (split rule) lead
  else ∃ c ∈ split path, Matches '*' rule.toList c.toList

/-- A rule that matches a directory matches everything below it. -/
theorem RuleMatches.below {rule dir : String} (h : RuleMatches rule dir) (rest : String) :
    RuleMatches rule (dir ++ "/" ++ rest) := by
  unfold RuleMatches at h ⊢
  split_ifs at h ⊢ with hs
  · obtain ⟨lead, tail, hsplit, hall⟩ := h
    exact ⟨lead, tail ++ split rest, by rw [split_slash, hsplit, List.append_assoc], hall⟩
  · obtain ⟨c, hc, hmatch⟩ := h
    exact ⟨c, by rw [split_slash]; exact List.mem_append_left _ hc, hmatch⟩

theorem one_lt_length_split {rule : String} : 1 < (split rule).length ↔ '/' ∈ rule.toList := by
  constructor
  · intro h
    by_contra hs
    rw [split_name hs] at h
    exact absurd h (lt_irrefl 1)
  · intro hs
    obtain ⟨a, b, hab⟩ := List.append_of_mem hs
    have hrule : rule = String.ofList a ++ "/" ++ String.ofList b := by
      refine String.ext ?_
      simp [String.toList_append, hab]
    have ha := List.length_pos_of_ne_nil (split_ne_nil (String.ofList a))
    have hb := List.length_pos_of_ne_nil (split_ne_nil (String.ofList b))
    rw [hrule, split_slash, List.length_append]
    omega

theorem parseLine_eq (line : List Char) :
    parseLine line = (ruleOf line).map (fun rule => ⟨split rule, '/' ∈ rule.toList⟩) := by
  simp only [parseLine, ruleOf, List.isEmpty_iff, Bool.or_eq_true, beq_iff_eq]
  by_cases hbody : LineText.trim Refs.isWhitespace line = [] ∨
      (LineText.trim Refs.isWhitespace line).head? = some '#'
  · rw [if_pos hbody, if_pos (hbody.elim .inl (fun h => .inr (.inl h)))]
    rfl
  · rw [if_neg hbody]
    by_cases hlast : stripLast '/' (LineText.trim Refs.isWhitespace line) = []
    · rw [if_pos hlast, if_pos (.inr (.inr hlast))]
      rfl
    · rw [if_neg hlast, if_neg (by tauto)]
      simp only [Option.map_some, gt_iff_lt, one_lt_length_split]

/-- The leading components, compared one by one. -/
theorem leading_iff {xs ys : List String} :
    (xs.length ≤ ys.length ∧ ∀ pc ∈ xs.zip ys, globComponent pc.1 pc.2 = true) ↔
      ∃ lead rest, ys = lead ++ rest ∧
        List.Forall₂ (fun p c : String => Matches '*' p.toList c.toList) xs lead := by
  induction xs generalizing ys with
  | nil => exact ⟨fun _ => ⟨[], ys, rfl, .nil⟩, fun _ => ⟨Nat.zero_le _, by simp⟩⟩
  | cons x xs ih =>
    cases ys with
    | nil =>
      constructor
      · rintro ⟨hlen, -⟩
        exact absurd hlen (by simp)
      · rintro ⟨lead, rest, hnil, hall⟩
        rw [(List.append_eq_nil_iff.mp hnil.symm).1] at hall
        cases hall
    | cons y ys =>
      simp only [List.length_cons, Nat.add_le_add_iff_right, List.zip_cons_cons,
        List.forall_mem_cons]
      constructor
      · rintro ⟨hlen, hx, hall⟩
        obtain ⟨lead, rest, rfl, h⟩ := ih.mp ⟨hlen, hall⟩
        exact ⟨y :: lead, rest, rfl, .cons (globComponent_iff.mp hx) h⟩
      · rintro ⟨lead, rest, hys, hall⟩
        cases hall with
        | cons hx h =>
          obtain ⟨rfl, rfl⟩ := List.cons.inj hys
          obtain ⟨hlen, hzip⟩ := ih.mpr ⟨_, rest, rfl, h⟩
          exact ⟨hlen, globComponent_iff.mpr hx, hzip⟩

theorem pattern_matches_iff {rule path : String} :
    (Pattern.mk (split rule) ('/' ∈ rule.toList)).matches (split path) = true ↔
      RuleMatches rule path := by
  by_cases hs : '/' ∈ rule.toList
  · simp only [Pattern.matches, RuleMatches, hs, decide_true, if_true, Bool.and_eq_true,
      decide_eq_true_eq, List.all_eq_true, leading_iff]
  · simp only [Pattern.matches, RuleMatches, hs, decide_false, Bool.false_eq_true, if_false,
      split_name hs, List.headD_cons, List.any_eq_true, globComponent_iff]

/-- The parsed rules match what the rules of the text match. -/
theorem matches_iff {text : Option (List Char)} {path : String} :
    (load text).matches path = true ↔ ∃ rule ∈ rules text, RuleMatches rule path := by
  cases text with
  | none => simp [load, rules, Ignore.matches]
  | some text =>
    simp only [load, parse, rules, Ignore.matches, List.any_eq_true, List.mem_filterMap,
      parseLine_eq, Option.map_eq_some_iff]
    constructor
    · rintro ⟨_, ⟨line, hline, rule, hrule, rfl⟩, hmatch⟩
      exact ⟨rule, ⟨line, hline, hrule⟩, pattern_matches_iff.mp hmatch⟩
    · rintro ⟨rule, ⟨line, hline, hrule⟩, hmatch⟩
      exact ⟨_, ⟨line, hline, rule, hrule, rfl⟩, pattern_matches_iff.mpr hmatch⟩

end SrcControl.IgnoreRules
