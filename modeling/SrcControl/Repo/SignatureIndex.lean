import SrcControl.Repo.Refs
import SrcControl.Repo.Signatures

/-!
# The signature index as text

One line for each entry. Appends can be cut anywhere, so the reader skips a line it cannot
parse, and an append starts on a fresh line.
-/

namespace SrcControl.SignatureIndex

open LineText Signatures

/-! ## Lines -/

/-- `split_whitespace`. -/
def splitWhitespace (s : List Char) : List (List Char) :=
  (s.splitOnP Refs.isWhitespace).filter (· ≠ [])

/-- Every word is free of whitespace. -/
def Word (w : List Char) : Prop := ∀ c ∈ w, Refs.isWhitespace c = false

def parseLine (line : List Char) : Option Entry :=
  match splitWhitespace line with
  | [target, sig, signer] => do
    let target ← ObjectId.parse target
    let sig ← ObjectId.parse sig
    let signer ← decodeHex signer
    if signer.length = 32 then some ⟨target, sig, signer⟩ else none
  | _ => none

/-- A line, without its newline. -/
def indexLine (e : Entry) : List Char :=
  e.target.toHex ++ ' ' :: (e.sig.toHex ++ ' ' :: encodeHex e.signer)

/-- The entries a text holds. -/
def readText (text : List Char) : List Entry :=
  (rawLines text).filterMap (fun raw => parseLine (lineBody raw))

def writeText (entries : List Entry) : List Char := unlines (entries.map indexLine)

/-- The widths of the object format. -/
def Entry.Sized (e : Entry) : Prop :=
  e.target.bytes.length = 32 ∧ e.sig.bytes.length = 32 ∧ e.signer.length = 32

theorem splitWhitespace_word {w : List Char} (hne : w ≠ []) (h : Word w) :
    splitWhitespace w = [w] := by
  rw [splitWhitespace, List.splitOnP_eq_singleton h]
  simp [hne]

theorem splitWhitespace_le {w : List Char} (h : Word w) : (splitWhitespace w).length ≤ 1 := by
  rw [splitWhitespace, List.splitOnP_eq_singleton h]
  exact List.length_filter_le _ _

theorem splitWhitespace_append {w : List Char} (hne : w ≠ []) (h : Word w) (rest : List Char) :
    splitWhitespace (w ++ ' ' :: rest) = w :: splitWhitespace rest := by
  rw [splitWhitespace, List.splitOnP_append_cons_of_forall_mem h _ (by decide)]
  simp [hne, splitWhitespace]

theorem splitOnP_snoc {α : Type} {p : α → Bool} {c : α} (hc : p c = true) (s : List α) :
    (s ++ [c]).splitOnP p = s.splitOnP p ++ [[]] := by
  induction s with
  | nil => simp [List.splitOnP_cons_eq_if_modifyHead, hc]
  | cons a s ih =>
    rw [List.cons_append, List.splitOnP_cons_eq_if_modifyHead, ih,
      List.splitOnP_cons_eq_if_modifyHead]
    split
    · rfl
    · cases h : s.splitOnP p with
      | nil => exact absurd h (List.splitOnP_ne_nil p s)
      | cons l ls => rfl

theorem splitWhitespace_snoc {c : Char} (hc : Refs.isWhitespace c = true) (s : List Char) :
    splitWhitespace (s ++ [c]) = splitWhitespace s := by
  simp [splitWhitespace, splitOnP_snoc hc]

/-- A carriage return at the end of a line does not matter. -/
theorem parseLine_stripLast (s : List Char) : parseLine (stripLast '\r' s) = parseLine s := by
  unfold stripLast
  split
  · next h =>
    obtain ⟨t, rfl⟩ : ∃ t, s = t ++ ['\r'] := ⟨s.dropLast, (List.dropLast_append_getLast? _ h).symm⟩
    rw [List.dropLast_concat, parseLine, parseLine, splitWhitespace_snoc (by decide)]
  · rfl

theorem word_hex (bs : List UInt8) : Word (encodeHex bs) := by
  have hhex : ∀ c ∈ hexChars, Refs.isWhitespace c = false := by
    simp [hexChars, Refs.isWhitespace]
  intro c hc
  exact hhex c (mem_encodeHex hc)

theorem length_encodeHex (bs : List UInt8) : (encodeHex bs).length = 2 * bs.length := by
  induction bs with
  | nil => rfl
  | cons b bs ih =>
    simp only [encodeHex, List.flatMap_cons, List.length_append, List.length_cons,
      List.length_nil] at ih ⊢
    omega

theorem length_of_decodeHex {s : List Char} {bs : List UInt8} (h : decodeHex s = some bs) :
    s.length = 2 * bs.length := by
  induction s using decodeHex.induct generalizing bs with
  | case1 => cases h; rfl
  | case2 => cases h
  | case3 hi lo cs ih =>
    simp only [decodeHex, Option.bind_eq_bind, Option.bind_eq_some_iff] at h
    obtain ⟨a, -, b, -, tail, htail, h⟩ := h
    cases h
    simp only [List.length_cons, ih htail]
    omega

theorem encodeHex_ne_nil {bs : List UInt8} (h : bs.length = 32) : encodeHex bs ≠ [] := by
  intro hnil
  have := length_encodeHex bs
  simp [hnil, h] at this

theorem parseLine_indexLine {e : Entry} (h : Entry.Sized e) : parseLine (indexLine e) = some e := by
  obtain ⟨htarget, hsig, hsigner⟩ := h
  have hne1 : e.target.toHex ≠ [] := encodeHex_ne_nil htarget
  have hne2 : e.sig.toHex ≠ [] := encodeHex_ne_nil hsig
  have hw1 : Word e.target.toHex := word_hex _
  have hw2 : Word e.sig.toHex := word_hex _
  have hsplit : splitWhitespace (indexLine e) =
      [e.target.toHex, e.sig.toHex, encodeHex e.signer] := by
    rw [indexLine, splitWhitespace_append hne1 hw1, splitWhitespace_append hne2 hw2,
      splitWhitespace_word (encodeHex_ne_nil hsigner) (word_hex _)]
  simp [parseLine, hsplit, ObjectId.parse_toHex htarget, ObjectId.parse_toHex hsig,
    decodeHex_encodeHex, hsigner]

theorem Word.of_subset {w v : List Char} (h : Word w) (hv : v ⊆ w) : Word v :=
  fun _ hc => h _ (hv hc)

theorem parseLine_eq_some {line : List Char} {e : Entry} (h : parseLine line = some e) :
    ∃ target sig signer bs, splitWhitespace line = [target, sig, signer] ∧
      decodeHex signer = some bs ∧ bs.length = 32 := by
  unfold parseLine at h
  split at h
  · next target sig signer hsplit =>
    simp only [Option.bind_eq_bind, Option.bind_eq_some_iff] at h
    obtain ⟨_, _, _, _, bs, hbs, h⟩ := h
    split at h
    · next hlen => exact ⟨target, sig, signer, bs, hsplit, hbs, hlen⟩
    · cases h
  · cases h

/-- A line that was cut and still parses was cut after its last character. -/
theorem cut_eq_indexLine {e x : Entry} (hx : Entry.Sized x) {t : List Char}
    (ht : t <+: indexLine x) (h : parseLine t = some e) : t = indexLine x := by
  obtain ⟨target, sig, signer, bs, hsplit, hbs, hlen⟩ := parseLine_eq_some h
  obtain ⟨htarget, hsig, hsigner⟩ := hx
  have hlength : (splitWhitespace t).length = 3 := by rw [hsplit]; rfl
  have hne1 : x.target.toHex ≠ [] := encodeHex_ne_nil htarget
  have hne2 : x.sig.toHex ≠ [] := encodeHex_ne_nil hsig
  have hw1 : Word x.target.toHex := word_hex _
  have hw2 : Word x.sig.toHex := word_hex _
  rw [indexLine] at ht ⊢
  rcases prefix_append_cases ht with hq | ⟨q, rfl, hq⟩
  · have := splitWhitespace_le (hw1.of_subset hq.subset)
    omega
  rcases List.prefix_cons_iff.mp hq with rfl | ⟨q, rfl, hq'⟩
  · have := splitWhitespace_le (w := x.target.toHex ++ []) (by simpa using hw1)
    omega
  rw [splitWhitespace_append hne1 hw1] at hlength hsplit
  rcases prefix_append_cases hq' with hr | ⟨r, rfl, hr⟩
  · have := splitWhitespace_le (hw2.of_subset hr.subset)
    simp only [List.length_cons] at hlength
    omega
  rcases List.prefix_cons_iff.mp hr with rfl | ⟨r, rfl, hr'⟩
  · have := splitWhitespace_le (w := x.sig.toHex ++ []) (by simpa using hw2)
    simp only [List.length_cons] at hlength
    omega
  rw [splitWhitespace_append hne2 hw2] at hlength hsplit
  -- what is left is a piece of the signer's text, and it decodes to 32 bytes
  have hword : Word r := (word_hex _).of_subset hr'.subset
  have hrne : r ≠ [] := by
    rintro rfl
    simp [splitWhitespace] at hlength
  rw [splitWhitespace_word hrne hword] at hsplit
  simp only [List.cons.injEq, and_true] at hsplit
  obtain ⟨-, -, rfl⟩ := hsplit
  have hrlen : r.length = (encodeHex x.signer).length := by
    rw [length_of_decodeHex hbs, length_encodeHex, hlen, hsigner]
  rw [hr'.eq_of_length hrlen]

/-! ## The file -/

theorem indexLine_plain {e : Entry} {c : Char} (h : c ∈ indexLine e) : c ≠ '\n' ∧ c ≠ '\r' := by
  have hhex : ∀ c ∈ hexChars, c ≠ '\n' ∧ c ≠ '\r' := by simp [hexChars]
  simp only [indexLine, ObjectId.toHex, List.mem_append, List.mem_cons] at h
  rcases h with h | rfl | h | rfl | h
  · exact hhex c (mem_encodeHex h)
  · decide
  · exact hhex c (mem_encodeHex h)
  · decide
  · exact hhex c (mem_encodeHex h)

/-- The text before the last line, and a last line without a newline. -/
theorem last_line (text : List Char) :
    ∃ before last, text = before ++ last ∧ '\n' ∉ last ∧
      (before = [] ∨ before.getLast? = some '\n') := by
  induction text with
  | nil => exact ⟨[], [], rfl, by simp, Or.inl rfl⟩
  | cons c text ih =>
    obtain ⟨before, last, rfl, hlast, hbefore⟩ := ih
    rcases hbefore with rfl | hbefore
    · by_cases hc : c = '\n'
      · exact ⟨[c], last, rfl, hlast, Or.inr (by simp [hc])⟩
      · exact ⟨[], c :: last, rfl, by simp [hlast, Ne.symm hc], Or.inl rfl⟩
    · refine ⟨c :: before, last, rfl, hlast, Or.inr ?_⟩
      rw [List.getLast?_cons, hbefore]
      rfl

theorem rawLines_append {s : List Char} (h : s = [] ∨ s.getLast? = some '\n') (t : List Char) :
    rawLines (s ++ t) = rawLines s ++ rawLines t := by
  induction s with
  | nil => rfl
  | cons c s ih =>
    rcases h with h | h
    · cases h
    by_cases hs : s = []
    · subst hs
      obtain rfl : c = '\n' := by simpa using h
      simp [rawLines]
    · have hlast : s.getLast? = some '\n' := by
        obtain ⟨d, s, rfl⟩ := List.exists_cons_of_ne_nil hs
        rwa [List.getLast?_cons_cons] at h
      rw [List.cons_append, rawLines, rawLines, ih (Or.inr hlast)]
      split
      · rfl
      · cases hr : rawLines s with
        | nil =>
          have := rawLines_flatten s
          rw [hr] at this
          exact absurd this.symm hs
        | cons l ls => rfl

theorem readText_append {s : List Char} (h : s = [] ∨ s.getLast? = some '\n') (t : List Char) :
    readText (s ++ t) = readText s ++ readText t := by
  rw [readText, rawLines_append h, List.filterMap_append]
  rfl

/-- Ending the last line changes no entry. -/
theorem readText_newline (text : List Char) : readText (text ++ ['\n']) = readText text := by
  obtain ⟨before, last, rfl, hlast, hbefore⟩ := last_line text
  rw [List.append_assoc, readText_append hbefore, readText_append hbefore]
  refine congrArg (readText before ++ ·) ?_
  have hraw : rawLines (last ++ ['\n']) = [last ++ ['\n']] := rawLines_line [] hlast
  have hended : readText (last ++ ['\n']) = [last].filterMap parseLine := by
    simp only [readText, hraw, List.filterMap_cons, List.filterMap_nil, lineBody_ended,
      parseLine_stripLast]
  by_cases hne : last = []
  · subst hne
    rw [hended]
    rfl
  · rw [hended, readText, rawLines_last hne hlast]
    simp only [List.filterMap_cons, List.filterMap_nil, lineBody_last hlast]

theorem writeText_cons (e : Entry) (es : List Entry) :
    writeText (e :: es) = (indexLine e ++ ['\n']) ++ writeText es := rfl

theorem readText_line {e : Entry} (h : Entry.Sized e) :
    readText (indexLine e ++ ['\n']) = [e] := by
  have hn : '\n' ∉ indexLine e := fun hc => (indexLine_plain hc).1 rfl
  have hr : '\r' ∉ indexLine e := fun hc => (indexLine_plain hc).2 rfl
  have hraw : rawLines (indexLine e ++ ['\n']) = [indexLine e ++ ['\n']] := rawLines_line [] hn
  simp [readText, hraw, lineBody_append hr, parseLine_indexLine h]

theorem readText_writeText_append {es : List Entry} (h : ∀ e ∈ es, Entry.Sized e)
    (rest : List Char) : readText (writeText es ++ rest) = es ++ readText rest := by
  induction es with
  | nil => rfl
  | cons e es ih =>
    have hline := readText_line (h e List.mem_cons_self)
    rw [writeText_cons, List.append_assoc, readText_append (Or.inr (by simp)), hline,
      ih fun x hx => h x (List.mem_cons_of_mem e hx)]
    rfl

theorem readText_writeText {es : List Entry} (h : ∀ e ∈ es, Entry.Sized e) :
    readText (writeText es) = es := by
  simpa [readText, rawLines] using readText_writeText_append h []

/-- A cut text reads as a first part of the entries: every torn line is skipped. -/
theorem readText_cut {es : List Entry} (h : ∀ e ∈ es, Entry.Sized e) {q : List Char}
    (hq : q <+: writeText es) : readText q <+: es := by
  have hq' : q <+: es.flatMap (fun e => indexLine e ++ ['\n']) := by
    simpa [writeText, unlines, List.flatMap_map] using hq
  obtain ⟨done, rest, t, rfl, rfl, htail⟩ := prefix_flatMap_cases hq'
  have hdone : done.flatMap (fun e => indexLine e ++ ['\n']) = writeText done := by
    simp [writeText, unlines, List.flatMap_map]
  rw [hdone, readText_writeText_append fun e he => h e (List.mem_append_left rest he)]
  rcases htail with rfl | ⟨x, rest, rfl, ht, hne⟩
  · exact ⟨rest, by simp [readText, rawLines]⟩
  have hx : Entry.Sized x := h x (by simp)
  have ht' : t <+: indexLine x := by
    rcases List.prefix_concat_iff.mp ht with rfl | ht'
    · exact absurd rfl hne
    · exact ht'
  have hn : '\n' ∉ t := fun hc => (indexLine_plain (ht'.subset hc)).1 rfl
  by_cases hnil : t = []
  · subst hnil
    exact ⟨x :: rest, by simp [readText, rawLines]⟩
  have hread : readText t = (parseLine t).toList := by
    simp only [readText, rawLines_last hnil hn, List.filterMap_cons, List.filterMap_nil,
      lineBody_last hn]
    cases parseLine t <;> rfl
  rw [hread]
  cases hparse : parseLine t with
  | none => exact ⟨x :: rest, by simp⟩
  | some e =>
    obtain rfl := cut_eq_indexLine hx ht' hparse
    obtain rfl : x = e := by simpa [parseLine_indexLine hx] using hparse
    exact ⟨rest, by simp⟩

/-! ## Appending -/

/-- The entries of `new` whose slot is free. -/
def freeEntries (entries : List Entry) : List Entry → List Entry
  | [] => []
  | e :: new =>
    if hasSlot entries e.target e.signer then freeEntries entries new
    else e :: freeEntries (entries ++ [e]) new

/-- What `append_entries` writes after the text it read. -/
def appendOut (text : List Char) (new : List Entry) : List Char :=
  let free := freeEntries (readText text) new
  if free = [] then []
  else (if text ≠ [] ∧ text.getLast? ≠ some '\n' then ['\n'] else []) ++ writeText free

theorem appendEntries_eq (entries new : List Entry) :
    appendEntries entries new = entries ++ freeEntries entries new := by
  induction new generalizing entries with
  | nil => simp [appendEntries, freeEntries]
  | cons e new ih =>
    have hcons : appendEntries entries (e :: new) = appendEntries (addEntry entries e) new := rfl
    rw [hcons, ih, freeEntries, addEntry]
    split
    · rfl
    · simp

theorem freeEntries_subset (entries new : List Entry) : freeEntries entries new ⊆ new := by
  induction new generalizing entries with
  | nil => exact List.Subset.refl _
  | cons e new ih =>
    rw [freeEntries]
    split
    · exact List.subset_cons_of_subset e (ih entries)
    · exact List.cons_subset_cons e (ih (entries ++ [e]))

/-- The reader sees a cut append as a first part of the entries it was to write. -/
theorem readText_cut_append {text : List Char} {new : List Entry}
    (h : ∀ e ∈ new, Entry.Sized e) {q : List Char} (hq : q <+: appendOut text new) :
    ∃ es, es <+: freeEntries (readText text) new ∧ readText (text ++ q) = readText text ++ es := by
  have hfree : ∀ e ∈ freeEntries (readText text) new, Entry.Sized e :=
    fun e he => h e (freeEntries_subset _ _ he)
  unfold appendOut at hq
  simp only at hq
  split at hq
  · obtain rfl := List.prefix_nil.mp hq
    exact ⟨[], List.nil_prefix, by simp⟩
  split at hq
  · rcases List.prefix_cons_iff.mp hq with rfl | ⟨r, rfl, hr⟩
    · exact ⟨[], List.nil_prefix, by simp⟩
    · refine ⟨readText r, readText_cut hfree hr, ?_⟩
      have hsplit : text ++ '\n' :: r = (text ++ ['\n']) ++ r := by simp
      rw [hsplit, readText_append (Or.inr (by simp)), readText_newline]
  · next hended =>
    have hended' : text = [] ∨ text.getLast? = some '\n' := by
      by_contra hcon
      exact hended ⟨fun h => hcon (Or.inl h), fun h => hcon (Or.inr h)⟩
    exact ⟨readText q, readText_cut hfree hq, readText_append hended' q⟩

/-- A finished append takes every free slot. -/
theorem readText_appendOut {text : List Char} {new : List Entry}
    (h : ∀ e ∈ new, Entry.Sized e) :
    readText (text ++ appendOut text new) = appendEntries (readText text) new := by
  have hfree : ∀ e ∈ freeEntries (readText text) new, Entry.Sized e :=
    fun e he => h e (freeEntries_subset _ _ he)
  rw [appendEntries_eq]
  unfold appendOut
  simp only
  split
  · next hnil => simp [hnil]
  split
  · rw [← List.append_assoc, readText_append (Or.inr (by simp)), readText_newline,
      readText_writeText hfree]
  · next hended =>
    have hended' : text = [] ∨ text.getLast? = some '\n' := by
      by_contra hcon
      exact hended ⟨fun h => hcon (Or.inl h), fun h => hcon (Or.inr h)⟩
    rw [List.nil_append, readText_append hended', readText_writeText hfree]

end SrcControl.SignatureIndex
