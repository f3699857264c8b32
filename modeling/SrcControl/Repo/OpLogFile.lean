import SrcControl.Core.IdText
import SrcControl.Repo.OpLog

/-!
# The operation log on disk

One block of lines per operation, appended by `record`. A reader takes the well-formed
blocks from the front and tolerates the rest; `record` drops the rest before it appends.
-/

namespace SrcControl.OpLogFile

open LineText

abbrev RefMove := String × Option ObjectId × Option ObjectId

def token : Option ObjectId → List Char
  | some id => id.toHex
  | none => ['-']

/-- `-` is an absent id; the outer `none` is a bad token. -/
def parseToken (s : List Char) : Option (Option ObjectId) :=
  if s = ['-'] then some none else (ObjectId.parse s).map some

def refLine (r : RefMove) : List Char :=
  "ref ".toList ++ (r.1.toList ++ ' ' :: (token r.2.1 ++ ' ' :: token r.2.2))

/-- The lines of a block before its terminator. -/
def bodyLines (rec : OpRecord) : List (List Char) :=
  ("op ".toList ++ showNat rec.seq) :: ("ts ".toList ++ showInt rec.ts) ::
    ("desc ".toList ++ (OpLog.oneLine rec.desc).toList) ::
    ("head ".toList ++ (rec.headBefore.toList ++ ' ' :: rec.headAfter.toList)) ::
    rec.refs.map refLine

def endLine : List Char := "end".toList

def serialize (rec : OpRecord) : List Char := unlines (bodyLines rec ++ [endLine])

def parseRefs : List (List Char) → Option (List RefMove × List (List Char))
  | [] => some ([], [])
  | line :: lines =>
    match stripPrefix "ref ".toList line with
    | none => some ([], line :: lines)
    | some r => do
      let (name, ids) ← splitOnce ' ' r
      let (beforeTok, afterTok) ← splitOnce ' ' ids
      let before ← parseToken beforeTok
      let after ← parseToken afterTok
      let (refs, rest) ← parseRefs lines
      pure ((String.ofList name, before, after) :: refs, rest)

/-- A block's record, once its terminator is reached. -/
def closeBlock (rec : OpRecord) : List (List Char) → Option (OpRecord × List (List Char))
  | line :: rest => if line = endLine then some (rec, rest) else none
  | [] => none

def parseBlock : List (List Char) → Option (OpRecord × List (List Char))
  | seqLine :: tsLine :: descLine :: headLine :: lines => do
    let seqText ← stripPrefix "op ".toList seqLine
    let seq ← parseUnsigned (2 ^ 64) (trim Refs.isWhitespace seqText)
    let tsText ← stripPrefix "ts ".toList tsLine
    let ts ← parseSigned (2 ^ 63) (trim Refs.isWhitespace tsText)
    let desc ← stripPrefix "desc ".toList descLine
    let heads ← stripPrefix "head ".toList headLine
    let (headBefore, headAfter) ← splitOnce ' ' heads
    let (refs, rest) ← parseRefs lines
    closeBlock ⟨seq, ts, .ofList desc, .ofList headBefore, .ofList headAfter, refs⟩ rest
  | _ => none

/-- The records of the well-formed blocks in front, and the raw lines after them. -/
def parseLines : Nat → List (List Char) → List OpRecord × List (List Char)
  | 0, raws => ([], raws)
  | fuel + 1, raws =>
    match parseBlock (raws.map lineBody) with
    | none => ([], raws)
    | some (rec, rest) =>
      let next := parseLines fuel (raws.drop (raws.length - rest.length))
      (rec :: next.1, next.2)

/-- The records, and the byte offset just past the last well-formed block. -/
def parseContents (contents : List Char) : List OpRecord × Nat :=
  let raws := rawLines contents
  let parsed := parseLines raws.length raws
  (parsed.1, (textBytes (raws.take (raws.length - parsed.2.length)).flatten).size)

def readToString (file : ByteArray) : Except Error (List Char) :=
  match decodeText file with
  | some text => .ok text
  | none => .error (.core .io)

/-- `read_all`; a missing log is an empty one. -/
def readAll (file : ByteArray) : Except Error (List OpRecord) := do
  let contents ← readToString file
  pure (parseContents contents).1

/-- `record`, to the bytes of the file after it. -/
def record (now : Int) (desc headBefore headAfter : String) (refs : List RefMove)
    (file : ByteArray) : Except Error ByteArray :=
  match refs.find? (fun r => OpLog.unparseable r.1) with
  | some r =>
    .error (.invalidArgument ("ref name " ++ r.1 ++
      " contains whitespace/control characters; would corrupt the oplog grammar"))
  | none => do
    let contents ← readToString file
    let (existing, consumed) := parseContents contents
    -- The torn tail goes first.
    let kept := if consumed < file.size then file.extract 0 consumed else file
    let seq := (existing.getLast?.map (fun r => (r.seq + 1) % 2 ^ 64)).getD 1
    pure (kept ++ textBytes (serialize ⟨seq, now, desc, headBefore, headAfter, refs⟩))

/-! ### One block -/

/-- A record as the log holds it. -/
structure Stored (rec : OpRecord) : Prop where
  seq : rec.seq < 2 ^ 64
  ts : -(2 ^ 63 : Int) ≤ rec.ts ∧ rec.ts < 2 ^ 63
  desc : OpLog.oneLine rec.desc = rec.desc
  heads : OpLog.unparseable rec.headBefore = false ∧ OpLog.unparseable rec.headAfter = false
  names : ∀ r ∈ rec.refs, OpLog.unparseable r.1 = false
  ids : ∀ r ∈ rec.refs, ∀ id, r.2.1 = some id ∨ r.2.2 = some id → id.bytes.length = 32

theorem plain_of_parseable {name : String} (h : OpLog.unparseable name = false) {c : Char}
    (hc : c ∈ name.toList) : c ≠ ' ' ∧ c ≠ '\n' ∧ c ≠ '\r' := by
  have hall := List.any_eq_false.mp h c hc
  refine ⟨?_, ?_, ?_⟩ <;> rintro rfl <;> exact hall (by decide)

theorem hexChars_plain {c : Char} (h : c ∈ hexChars) :
    c ≠ ' ' ∧ c ≠ '\n' ∧ c ≠ '\r' ∧ c ≠ '-' := by
  refine ⟨?_, ?_, ?_, ?_⟩ <;> rintro rfl <;> simp [hexChars] at h

theorem token_plain {id : Option ObjectId} {c : Char} (h : c ∈ token id) :
    c ≠ ' ' ∧ c ≠ '\n' ∧ c ≠ '\r' := by
  cases id with
  | none =>
    obtain rfl := List.mem_singleton.mp h
    decide
  | some id =>
    have hc := hexChars_plain (mem_encodeHex h)
    exact ⟨hc.1, hc.2.1, hc.2.2.1⟩

theorem parseToken_token {id : Option ObjectId} (h : ∀ i, id = some i → i.bytes.length = 32) :
    parseToken (token id) = some id := by
  cases id with
  | none => rfl
  | some id =>
    have hne : id.toHex ≠ ['-'] := by
      intro he
      have hm : '-' ∈ id.toHex := by simp [he]
      exact (hexChars_plain (mem_encodeHex hm)).2.2.2 rfl
    rw [token, parseToken, if_neg hne, ObjectId.parse_toHex (h id rfl)]
    rfl

theorem isDigit_not_whitespace {c : Char} (h : c.isDigit ∨ c = '-') :
    Refs.isWhitespace c = false ∧ c ≠ '\n' ∧ c ≠ '\r' := by
  rcases h with h | rfl
  · have hr : 48 ≤ c.toNat ∧ c.toNat ≤ 57 := by
      simpa [Char.isDigit, UInt32.le_iff_toNat_le] using h
    refine ⟨?_, ?_, ?_⟩
    · simp [Refs.isWhitespace]
      omega
    · rintro rfl
      exact absurd hr.1 (by decide)
    · rintro rfl
      exact absurd hr.1 (by decide)
  · decide

theorem parseRefs_map (refs : List RefMove) (rest : List (List Char))
    (hnames : ∀ r ∈ refs, OpLog.unparseable r.1 = false)
    (hids : ∀ r ∈ refs, ∀ id, r.2.1 = some id ∨ r.2.2 = some id → id.bytes.length = 32)
    (hrest : ∀ l ∈ rest.head?, stripPrefix "ref ".toList l = none) :
    parseRefs (refs.map refLine ++ rest) = some (refs, rest) := by
  induction refs with
  | nil =>
    cases rest with
    | nil => rfl
    | cons l ls =>
      rw [List.map_nil, List.nil_append, parseRefs, hrest l rfl]
  | cons r refs ih =>
    obtain ⟨name, before, after⟩ := r
    have hname : ' ' ∉ name.toList := fun hc =>
      (plain_of_parseable (hnames _ List.mem_cons_self) hc).1 rfl
    have htok : ' ' ∉ token before := fun hc => (token_plain hc).1 rfl
    have hb := parseToken_token fun i hi => hids _ List.mem_cons_self i (Or.inl hi)
    have ha := parseToken_token fun i hi => hids _ List.mem_cons_self i (Or.inr hi)
    have hrec := ih (fun r hr => hnames r (List.mem_cons_of_mem _ hr))
      fun r hr => hids r (List.mem_cons_of_mem _ hr)
    rw [List.map_cons, List.cons_append, parseRefs, refLine, stripPrefix_append]
    simp only at hb ha
    simp [splitOnce_append _ hname, splitOnce_append _ htok, hb, ha, hrec]

/-- A block's body is read back, and what follows it decides. -/
theorem parseBlock_body {rec : OpRecord} (h : Stored rec) (rest : List (List Char))
    (hrest : ∀ l ∈ rest.head?, stripPrefix "ref ".toList l = none) :
    parseBlock (bodyLines rec ++ rest) = closeBlock rec rest := by
  have hseq : trim Refs.isWhitespace (showNat rec.seq) = showNat rec.seq :=
    trim_eq_self fun _ hc => (isDigit_not_whitespace (Or.inl (showNat_isDigit hc))).1
  have hts : trim Refs.isWhitespace (showInt rec.ts) = showInt rec.ts :=
    trim_eq_self fun _ hc => (isDigit_not_whitespace (mem_showInt hc)).1
  have hhead : ' ' ∉ rec.headBefore.toList := fun hc => (plain_of_parseable h.heads.1 hc).1 rfl
  have hp := parseRefs_map rec.refs rest h.names h.ids hrest
  have hsigned : parseSigned (2 ^ 63) (showInt rec.ts) = some rec.ts :=
    parseSigned_showInt (by simpa using h.ts.1) (by simpa using h.ts.2)
  simp only [bodyLines, List.cons_append, parseBlock, stripPrefix_append, h.desc,
    Option.bind_eq_bind, Option.bind_some, hseq, hts, parseUnsigned_showNat h.seq, hsigned,
    splitOnce_append _ hhead, hp, String.ofList_toList]

theorem parseRefs_suffix {lines rest : List (List Char)} {refs : List RefMove}
    (h : parseRefs lines = some (refs, rest)) : rest <:+ lines := by
  induction lines generalizing refs rest with
  | nil =>
    cases h
    exact List.suffix_rfl
  | cons line lines ih =>
    rw [parseRefs] at h
    split at h
    · cases h
      exact List.suffix_rfl
    · simp only [Option.bind_eq_bind, Option.bind_eq_some_iff, Prod.exists] at h
      obtain ⟨_, _, -, _, _, -, _, -, _, -, refs', rest', hrec, he⟩ := h
      cases he
      exact (ih hrec).trans (List.suffix_cons _ _)

/-- Only a block that reaches its terminator is read. -/
theorem parseBlock_needs_end {lines rest : List (List Char)} {rec : OpRecord}
    (h : parseBlock lines = some (rec, rest)) : endLine ∈ lines := by
  unfold parseBlock at h
  split at h
  · next lines =>
    simp only [Option.bind_eq_bind, Option.bind_eq_some_iff, Prod.exists] at h
    obtain ⟨_, -, _, -, _, -, _, -, _, -, _, -, _, _, -, refs, after, hrefs, hclose⟩ := h
    unfold closeBlock at hclose
    split at hclose
    · next line rest' =>
      split at hclose
      · next he =>
        have hmem := (parseRefs_suffix hrefs).subset (List.mem_cons_self (a := line))
        rw [he] at hmem
        simp [hmem]
      · cases hclose
    · cases hclose
  · cases h

/-- No character that ends a line. -/
def Plain (l : List Char) : Prop := '\n' ∉ l ∧ '\r' ∉ l

instance (l : List Char) : Decidable (Plain l) :=
  inferInstanceAs (Decidable ('\n' ∉ l ∧ '\r' ∉ l))

theorem plain_of_forall {l : List Char} (h : ∀ c ∈ l, c ≠ '\n' ∧ c ≠ '\r') : Plain l :=
  ⟨fun hc => (h _ hc).1 rfl, fun hc => (h _ hc).2 rfl⟩

theorem Plain.append {a b : List Char} (ha : Plain a) (hb : Plain b) : Plain (a ++ b) := by
  simp only [Plain, List.mem_append, not_or]
  exact ⟨⟨ha.1, hb.1⟩, ⟨ha.2, hb.2⟩⟩

theorem Plain.spaced {a b : List Char} (ha : Plain a) (hb : Plain b) : Plain (a ++ ' ' :: b) :=
  ha.append (Plain.append (a := [' ']) (by decide) hb)

theorem plain_name {name : String} (h : OpLog.unparseable name = false) : Plain name.toList :=
  plain_of_forall fun _ hc => (plain_of_parseable h hc).2

theorem plain_token (id : Option ObjectId) : Plain (token id) :=
  plain_of_forall fun _ hc => (token_plain hc).2

theorem plain_oneLine (desc : String) : Plain (OpLog.oneLine desc).toList := by
  refine plain_of_forall fun c hc => ?_
  rw [OpLog.oneLine, String.toList_ofList] at hc
  obtain ⟨d, -, rfl⟩ := List.mem_map.mp hc
  split
  · decide
  · next hd => exact not_or.mp hd

theorem plain_refLine {r : RefMove} (h : OpLog.unparseable r.1 = false) : Plain (refLine r) := by
  have hids : Plain (token r.2.1 ++ ' ' :: token r.2.2) := (plain_token _).spaced (plain_token _)
  exact Plain.append (by decide) ((plain_name h).spaced hids)

theorem bodyLines_plain {rec : OpRecord} (h : Stored rec) {l : List Char}
    (hl : l ∈ bodyLines rec ++ [endLine]) : Plain l := by
  simp only [bodyLines, List.cons_append, List.mem_cons, List.mem_append, List.mem_map,
    List.not_mem_nil, or_false] at hl
  rcases hl with rfl | rfl | rfl | rfl | ⟨r, hr, rfl⟩ | rfl
  · exact Plain.append (by decide) (plain_of_forall fun _ hc =>
      (isDigit_not_whitespace (Or.inl (showNat_isDigit hc))).2)
  · exact Plain.append (by decide) (plain_of_forall fun _ hc =>
      (isDigit_not_whitespace (mem_showInt hc)).2)
  · exact Plain.append (by decide) (plain_oneLine _)
  · exact Plain.append (by decide) ((plain_name h.heads.1).spaced (plain_name h.heads.2))
  · exact plain_refLine (h.names r hr)
  · decide

theorem bodyLines_not_end {rec : OpRecord} {l : List Char} (hl : l ∈ bodyLines rec) :
    ¬ endLine <+: l := by
  simp only [bodyLines, List.mem_cons, List.mem_map] at hl
  rcases hl with rfl | rfl | rfl | rfl | ⟨r, -, rfl⟩ <;> simp [endLine, refLine]

/-! ### A file of blocks -/

/-- The raw lines of a block. -/
def blockRaws (rec : OpRecord) : List (List Char) := (bodyLines rec ++ [endLine]).map (· ++ ['\n'])

theorem rawLines_blocks {recs : List OpRecord} (h : ∀ r ∈ recs, Stored r) (tail : List Char) :
    rawLines (recs.flatMap serialize ++ tail) = recs.flatMap blockRaws ++ rawLines tail := by
  induction recs with
  | nil => rfl
  | cons r recs ih =>
    have hr := h r List.mem_cons_self
    rw [List.flatMap_cons, List.append_assoc, serialize,
      rawLines_unlines_append _ fun l hl => (bodyLines_plain hr hl).1,
      ih fun r' hr' => h r' (List.mem_cons_of_mem _ hr'), List.flatMap_cons, List.append_assoc]
    rfl

theorem blockRaws_body {rec : OpRecord} (h : Stored rec) :
    (blockRaws rec).map lineBody = bodyLines rec ++ [endLine] := by
  rw [blockRaws, List.map_map]
  refine (List.map_congr_left fun l hl => ?_).trans (List.map_id _)
  exact lineBody_append (bodyLines_plain h hl).2

theorem endLine_not_ref : stripPrefix "ref ".toList endLine = none := by decide

theorem parseBlock_raws {rec : OpRecord} (h : Stored rec) (more : List (List Char)) :
    parseBlock ((blockRaws rec ++ more).map lineBody) = some (rec, more.map lineBody) := by
  rw [List.map_append, blockRaws_body h, List.append_assoc, List.singleton_append,
    parseBlock_body h]
  · rw [closeBlock, if_pos rfl]
  · intro l hl
    cases hl
    exact endLine_not_ref

theorem parseLines_blocks {recs : List OpRecord} (h : ∀ r ∈ recs, Stored r)
    (more : List (List Char)) (n : Nat) :
    parseLines (n + recs.length) (recs.flatMap blockRaws ++ more) =
      (recs ++ (parseLines n more).1, (parseLines n more).2) := by
  induction recs with
  | nil => rfl
  | cons r recs ih =>
    have hdrop : ∀ rest : List (List Char), (blockRaws r ++ rest).drop
        ((blockRaws r ++ rest).length - (rest.map lineBody).length) = rest := by
      intro rest
      rw [List.length_append, List.length_map, Nat.add_sub_cancel, List.drop_left]
    rw [List.flatMap_cons, List.append_assoc, List.length_cons, ← Nat.add_assoc, parseLines,
      parseBlock_raws (h r List.mem_cons_self)]
    simp only [hdrop]
    rw [ih fun r' hr' => h r' (List.mem_cons_of_mem _ hr')]
    rfl

/-- What follows the blocks yields no record. -/
def Unreadable (tail : List Char) : Prop :=
  ∀ n, parseLines n (rawLines tail) = ([], rawLines tail)

theorem unreadable_of_parseBlock {tail : List Char}
    (h : parseBlock ((rawLines tail).map lineBody) = none) : Unreadable tail := by
  intro n
  cases n with
  | zero => rfl
  | succ n => rw [parseLines, h]

theorem flatten_blockRaws (recs : List OpRecord) :
    (recs.flatMap blockRaws).flatten = recs.flatMap serialize := by
  induction recs with
  | nil => rfl
  | cons r recs ih =>
    have hr : (blockRaws r).flatten = serialize r := by
      rw [blockRaws, serialize, unlines, List.flatMap_def]
    rw [List.flatMap_cons, List.flatten_append, ih, List.flatMap_cons, hr]

theorem length_le_blockRaws (recs : List OpRecord) : recs.length ≤ (recs.flatMap blockRaws).length := by
  induction recs with
  | nil => exact Nat.le_refl _
  | cons r recs ih =>
    have hpos : 1 ≤ (blockRaws r).length := by simp [blockRaws]
    rw [List.flatMap_cons, List.length_append, List.length_cons]
    omega

theorem parseContents_blocks {recs : List OpRecord} (h : ∀ r ∈ recs, Stored r) {tail : List Char}
    (htail : Unreadable tail) : parseContents (recs.flatMap serialize ++ tail) =
      (recs, (textBytes (recs.flatMap serialize)).size) := by
  have hlen := length_le_blockRaws recs
  have hp : ∀ n, recs.length ≤ n → parseLines n (recs.flatMap blockRaws ++ rawLines tail) =
      (recs, rawLines tail) := by
    intro n hn
    obtain ⟨m, rfl⟩ := Nat.exists_eq_add_of_le' hn
    rw [parseLines_blocks h, htail m, List.append_nil]
  rw [parseContents, rawLines_blocks h]
  have hfuel : recs.length ≤ (recs.flatMap blockRaws ++ rawLines tail).length := by
    rw [List.length_append]
    omega
  simp only [hp _ hfuel]
  rw [List.length_append, Nat.add_sub_cancel, List.take_left, flatten_blockRaws]

/-! ### Recording -/

/-- What callers pass: a machine time, branch names as heads, ids of 32 bytes, and no ref name
that `record` refuses. -/
structure Callable (now : Int) (headBefore headAfter : String) (refs : List RefMove) : Prop where
  now : -(2 ^ 63 : Int) ≤ now ∧ now < 2 ^ 63
  heads : OpLog.unparseable headBefore = false ∧ OpLog.unparseable headAfter = false
  names : ∀ r ∈ refs, OpLog.unparseable r.1 = false
  ids : ∀ r ∈ refs, ∀ id, r.2.1 = some id ∨ r.2.2 = some id → id.bytes.length = 32

/-- The record that `record` adds to a log. -/
def entry (log : List OpRecord) (now : Int) (desc headBefore headAfter : String)
    (refs : List RefMove) : OpRecord :=
  ⟨(log.getLast?.map (fun r => (r.seq + 1) % 2 ^ 64)).getD 1, now, OpLog.oneLine desc,
    headBefore, headAfter, refs⟩

theorem oneLine_idem (desc : String) :
    OpLog.oneLine (OpLog.oneLine desc) = OpLog.oneLine desc := by
  have hmap : ∀ c : Char, (if (if c = '\n' ∨ c = '\r' then ' ' else c) = '\n' ∨
      (if c = '\n' ∨ c = '\r' then ' ' else c) = '\r' then ' '
      else if c = '\n' ∨ c = '\r' then ' ' else c) = if c = '\n' ∨ c = '\r' then ' ' else c := by
    intro c
    by_cases hc : c = '\n' ∨ c = '\r'
    · rw [if_pos hc, if_neg (by decide)]
    · rw [if_neg hc, if_neg hc]
  unfold OpLog.oneLine
  rw [String.toList_ofList, List.map_map]
  exact congrArg String.ofList (List.map_congr_left fun c _ => hmap c)

section

variable {now : Int} {desc headBefore headAfter : String} {refs : List RefMove}

theorem stored_entry (hc : Callable now headBefore headAfter refs) (log : List OpRecord) :
    Stored (entry log now desc headBefore headAfter refs) where
  seq := by
    cases h : log.getLast? with
    | none => simp [entry, h]
    | some r =>
      simp only [entry, h, Option.map_some, Option.getD_some]
      exact Nat.mod_lt _ (by decide)
  ts := hc.now
  desc := oneLine_idem desc
  heads := hc.heads
  names := hc.names
  ids := hc.ids

theorem serialize_entry (log : List OpRecord) :
    serialize ⟨(log.getLast?.map (fun r => (r.seq + 1) % 2 ^ 64)).getD 1, now, desc, headBefore,
      headAfter, refs⟩ = serialize (entry log now desc headBefore headAfter refs) := by
  simp only [serialize, bodyLines, entry, oneLine_idem]

theorem extract_textBytes (a b : List Char) :
    (textBytes (a ++ b)).extract 0 (textBytes a).size = textBytes a := by
  rw [textBytes_append]
  exact ByteArray.extract_append_eq_left rfl

/-- Blocks and an unreadable tail: the tail is dropped and the new block appended. -/
theorem record_blocks {recs : List OpRecord} (h : ∀ r ∈ recs, Stored r) {tail : List Char}
    (htail : Unreadable tail) (hc : Callable now headBefore headAfter refs) :
    record now desc headBefore headAfter refs (textBytes (recs.flatMap serialize ++ tail)) =
      .ok (textBytes ((recs ++ [entry recs now desc headBefore headAfter refs]).flatMap
        serialize)) := by
  have hfind : refs.find? (fun r => OpLog.unparseable r.1) = none := by
    rw [List.find?_eq_none]
    intro r hr
    simp [hc.names r hr]
  have hkept : (if (textBytes (recs.flatMap serialize)).size <
        (textBytes (recs.flatMap serialize ++ tail)).size
      then (textBytes (recs.flatMap serialize ++ tail)).extract 0
        (textBytes (recs.flatMap serialize)).size
      else textBytes (recs.flatMap serialize ++ tail)) = textBytes (recs.flatMap serialize) := by
    split
    · exact extract_textBytes _ _
    · next hle =>
      rw [← extract_textBytes (recs.flatMap serialize) tail]
      refine (ByteArray.extract_zero_size).symm.trans ?_
      rw [textBytes_append, ByteArray.size_append] at hle ⊢
      congr 1
      omega
  unfold record
  rw [hfind]
  simp only [readToString, decodeText_textBytes, bind, Except.bind, pure, Except.pure,
    parseContents_blocks h htail]
  rw [hkept, serialize_entry, ← textBytes_append, List.flatMap_append, List.flatMap_singleton]

theorem readAll_blocks {recs : List OpRecord} (h : ∀ r ∈ recs, Stored r) {tail : List Char}
    (htail : Unreadable tail) : readAll (textBytes (recs.flatMap serialize ++ tail)) = .ok recs := by
  simp only [readAll, readToString, decodeText_textBytes, bind, Except.bind, pure, Except.pure,
    parseContents_blocks h htail]

theorem unreadable_nil : Unreadable [] := by
  intro n
  cases n <;> rfl

end

/-- Files that `record` has written from nothing, and what it was told to write. -/
inductive Written : ByteArray → List OpRecord → Prop
  | empty : Written (textBytes []) []
  | record {file file' : ByteArray} {recs : List OpRecord} {now : Int}
      {desc headBefore headAfter : String} {refs : List RefMove} (h : Written file recs)
      (hc : Callable now headBefore headAfter refs)
      (hr : record now desc headBefore headAfter refs file = .ok file') :
      Written file' (recs ++ [entry recs now desc headBefore headAfter refs])

theorem written_blocks {file : ByteArray} {recs : List OpRecord} (h : Written file recs) :
    file = textBytes (recs.flatMap serialize) ∧ ∀ r ∈ recs, Stored r := by
  induction h with
  | empty => exact ⟨rfl, by simp⟩
  | @record file file' recs now desc hb ha refs _ hc hr ih =>
    obtain ⟨rfl, hstored⟩ := ih
    have hrec : record now desc hb ha refs (textBytes (recs.flatMap serialize ++ [])) = _ :=
      record_blocks hstored unreadable_nil hc
    rw [List.append_nil, hr] at hrec
    refine ⟨Except.ok.inj hrec, fun r hmem => ?_⟩
    rcases List.mem_append.mp hmem with hmem | hmem
    · exact hstored r hmem
    · rw [List.mem_singleton.mp hmem]
      exact stored_entry hc recs

/-! ### Torn files -/

def blockSize (rec : OpRecord) : Nat := (textBytes (serialize rec)).size

/-- The records whose blocks, up to the terminator, lie within the first `k` bytes. -/
def completeIn (k : Nat) : List OpRecord → List OpRecord
  | [] => []
  | rec :: recs =>
    if blockSize rec ≤ k + 1 then rec :: completeIn (k - blockSize rec) recs else []

/-- The cut falls between the `end` of a block and its newline. -/
def EndsBare (recs : List OpRecord) (k : Nat) : Prop :=
  ∃ done rec rest, recs = done ++ rec :: rest ∧ k + 1 = ((done ++ [rec]).map blockSize).sum

/-- The complete records are read from the first `k` bytes, and recording goes on after them. -/
structure Survives (file : ByteArray) (recs : List OpRecord) (k : Nat) : Prop where
  read : readAll (file.extract 0 k) = .ok (completeIn k recs)
  append : ∀ now desc headBefore headAfter refs, Callable now headBefore headAfter refs →
    ∃ file', record now desc headBefore headAfter refs (file.extract 0 k) = .ok file' ∧
      readAll file' = .ok (completeIn k recs ++
        [entry (completeIn k recs) now desc headBefore headAfter refs])

theorem serialize_eq (rec : OpRecord) :
    serialize rec = unlines (bodyLines rec) ++ ['e', 'n'] ++ ['d'] ++ ['\n'] := by
  simp [serialize, unlines_append, endLine]

/-- A block without its last newline. -/
def bare (rec : OpRecord) : List Char := unlines (bodyLines rec) ++ endLine

theorem serialize_bare (rec : OpRecord) : serialize rec = bare rec ++ ['\n'] := by
  simp [serialize_eq, bare, endLine]

theorem size_append (a b : List Char) :
    (textBytes (a ++ b)).size = (textBytes a).size + (textBytes b).size := by
  rw [textBytes_append, ByteArray.size_append]

theorem blockSize_bare (rec : OpRecord) : blockSize rec = (textBytes (bare rec)).size + 1 := by
  rw [blockSize, serialize_bare, size_append]
  rfl

theorem size_bare_pos (rec : OpRecord) : 0 < (textBytes (bare rec)).size := by
  rw [bare, size_append]
  exact Nat.lt_of_lt_of_le (by decide : 0 < (textBytes endLine).size) (Nat.le_add_left _ _)

theorem size_blocks (recs : List OpRecord) :
    (textBytes (recs.flatMap serialize)).size = (recs.map blockSize).sum := by
  induction recs with
  | nil => rfl
  | cons r recs ih => rw [List.flatMap_cons, size_append, ih, List.map_cons, List.sum_cons, blockSize]

theorem completeIn_append (done rest : List OpRecord) (k : Nat) :
    completeIn ((done.map blockSize).sum + k) (done ++ rest) = done ++ completeIn k rest := by
  induction done with
  | nil => rw [List.map_nil, List.sum_nil, Nat.zero_add]; rfl
  | cons r done ih =>
    rw [List.map_cons, List.sum_cons, List.cons_append, completeIn, if_pos (by omega),
      show blockSize r + (done.map blockSize).sum + k - blockSize r = (done.map blockSize).sum + k
        by omega, ih]
    rfl

theorem completeIn_zero (recs : List OpRecord) : completeIn 0 recs = [] := by
  cases recs with
  | nil => rfl
  | cons r recs =>
    have hpos := size_bare_pos r
    rw [completeIn, if_neg]
    rw [blockSize_bare]
    omega

theorem completeIn_bare (r : OpRecord) (recs : List OpRecord) :
    completeIn (textBytes (bare r)).size (r :: recs) = [r] := by
  have hsize := blockSize_bare r
  rw [completeIn, if_pos (by omega), Nat.sub_eq_zero_of_le (by omega), completeIn_zero]

/-- A proper prefix of a block stops right before its newline or inside its terminator. -/
theorem proper_prefix_cases {rec : OpRecord} {t : List Char} (h : t <+: serialize rec)
    (hne : t ≠ serialize rec) :
    t = bare rec ∨ t <+: unlines (bodyLines rec) ++ ['e', 'n'] := by
  rw [serialize_eq] at h hne
  rcases List.prefix_concat_iff.mp h with he | h
  · exact absurd he hne
  · rcases List.prefix_concat_iff.mp h with he | h
    · exact Or.inl (by rw [he, bare, endLine]; simp)
    · exact Or.inr h

theorem unreadable_torn {rec : OpRecord} (hr : Stored rec) {t : List Char}
    (h : t <+: unlines (bodyLines rec) ++ ['e', 'n']) : Unreadable t := by
  refine unreadable_of_parseBlock ?_
  cases hp : parseBlock ((rawLines t).map lineBody) with
  | none => rfl
  | some parsed =>
    exfalso
    obtain ⟨raw, hraw, hend⟩ := List.mem_map.mp (parseBlock_needs_end hp)
    have hnl : ∀ l ∈ bodyLines rec ++ [['e', 'n']], '\n' ∉ l := by
      intro l hl
      rcases List.mem_append.mp hl with hl | hl
      · exact (bodyLines_plain hr (List.mem_append_left _ hl)).1
      · rw [List.mem_singleton.mp hl]
        decide
    have ht : t <+: unlines (bodyLines rec ++ [['e', 'n']]) := by
      refine h.trans ⟨['\n'], ?_⟩
      simp [unlines_append]
    obtain ⟨l, hl, hpre⟩ := lineBody_of_prefix hnl ht hraw
    rw [hend] at hpre
    rcases List.mem_append.mp hl with hl | hl
    · exact bodyLines_not_end hl hpre
    · rw [List.mem_singleton.mp hl] at hpre
      exact absurd hpre.length_le (by decide)

theorem size_torn {rec : OpRecord} {t : List Char}
    (h : t <+: unlines (bodyLines rec) ++ ['e', 'n']) : (textBytes t).size + 1 < blockSize rec := by
  obtain ⟨u, hu⟩ := h
  have hsize := congrArg (fun s => (textBytes s).size) hu
  simp only [size_append] at hsize
  rw [blockSize, serialize_eq, size_append, size_append, size_append]
  have hd : (textBytes ['d']).size = 1 := rfl
  have hn : (textBytes ['\n']).size = 1 := rfl
  omega

/-- The next block runs into the terminator that has no newline: neither is read. -/
theorem unreadable_bare_append {rec rec' : OpRecord} (hr : Stored rec) (hr' : Stored rec') :
    Unreadable (bare rec ++ serialize rec') := by
  obtain ⟨line, lines, hlines⟩ : ∃ line lines, bodyLines rec' ++ [endLine] = ('o' :: line) :: lines :=
    ⟨_, _, rfl⟩
  have hplain : ∀ l ∈ bodyLines rec ++ (endLine ++ 'o' :: line) :: lines, Plain l := by
    intro l hl
    have hmem : ∀ l ∈ ('o' :: line) :: lines, Plain l := by
      rw [← hlines]
      exact fun l hl => bodyLines_plain hr' hl
    rcases List.mem_append.mp hl with hl | hl
    · exact bodyLines_plain hr (List.mem_append_left _ hl)
    · rcases List.mem_cons.mp hl with rfl | hl
      · exact Plain.append (by decide) (hmem _ List.mem_cons_self)
      · exact hmem l (List.mem_cons_of_mem _ hl)
  have htext : bare rec ++ serialize rec' =
      unlines (bodyLines rec ++ (endLine ++ 'o' :: line) :: lines) ++ [] := by
    rw [serialize, hlines, bare, unlines_append]
    simp
  refine unreadable_of_parseBlock ?_
  rw [htext, rawLines_unlines_append _ fun l hl => (hplain l hl).1, rawLines, List.append_nil,
    List.map_map]
  have hid : (bodyLines rec ++ (endLine ++ 'o' :: line) :: lines).map (lineBody ∘ (· ++ ['\n'])) =
      bodyLines rec ++ (endLine ++ 'o' :: line) :: lines :=
    (List.map_congr_left fun l hl => lineBody_append (hplain l hl).2).trans (List.map_id _)
  rw [hid, parseBlock_body hr]
  · rw [closeBlock, if_neg]
    simp [endLine]
  · intro l hl
    cases hl
    simp [stripPrefix, endLine]

theorem rawLines_bare {rec : OpRecord} (hr : Stored rec) :
    rawLines (bare rec) = (bodyLines rec).map (· ++ ['\n']) ++ [endLine] := by
  rw [bare, rawLines_unlines_append _ fun l hl =>
    (bodyLines_plain hr (List.mem_append_left _ hl)).1, rawLines_last (by decide) (by decide)]

theorem parseLines_bare {rec : OpRecord} (hr : Stored rec) (n : Nat) :
    parseLines (n + 1) (rawLines (bare rec)) = ([rec], []) := by
  have hbody : (rawLines (bare rec)).map lineBody = bodyLines rec ++ [endLine] := by
    rw [rawLines_bare hr, List.map_append, List.map_map]
    refine congrArg₂ (· ++ ·) ((List.map_congr_left fun l hl => ?_).trans (List.map_id _)) rfl
    exact lineBody_append (bodyLines_plain hr (List.mem_append_left _ hl)).2
  have hp : parseBlock ((rawLines (bare rec)).map lineBody) = some (rec, []) := by
    rw [hbody, parseBlock_body hr]
    · rw [closeBlock, if_pos rfl]
    · intro l hl
      cases hl
      exact endLine_not_ref
  rw [parseLines, hp]
  simp only [List.length_nil, Nat.sub_zero, List.drop_length]
  cases n <;> rfl

/-- The block without its newline counts as read to the end of the file. -/
theorem parseContents_bare {done : List OpRecord} {rec : OpRecord} (h : ∀ r ∈ done, Stored r)
    (hr : Stored rec) : parseContents (done.flatMap serialize ++ bare rec) =
      (done ++ [rec], (textBytes (done.flatMap serialize ++ bare rec)).size) := by
  have hlen := length_le_blockRaws done
  obtain ⟨m, hm⟩ : ∃ m, (done.flatMap blockRaws ++ rawLines (bare rec)).length =
      m + 1 + done.length := by
    refine ⟨(done.flatMap blockRaws).length - done.length + (bodyLines rec).length, ?_⟩
    rw [rawLines_bare hr, List.length_append, List.length_append, List.length_map]
    simp only [List.length_singleton]
    omega
  rw [parseContents, rawLines_blocks h]
  simp only [hm, parseLines_blocks h, parseLines_bare hr]
  rw [← hm, List.length_nil, Nat.sub_zero, List.take_length, ← rawLines_blocks h,
    rawLines_flatten]

theorem not_survives_bare {done : List OpRecord} {rec : OpRecord} (rest : List OpRecord)
    (h : ∀ r ∈ done, Stored r) (hr : Stored rec) {file : ByteArray} {k : Nat}
    (hcut : file.extract 0 k = textBytes (done.flatMap serialize ++ bare rec))
    (hk : k = (done.map blockSize).sum + (textBytes (bare rec)).size) :
    ¬ Survives file (done ++ rec :: rest) k := by
  intro hs
  have hc : Callable 0 "main" "main" [] :=
    ⟨by decide, by decide, by simp, by simp⟩
  obtain ⟨file', hrec, hread⟩ := hs.append 0 "" "main" "main" [] hc
  have hcomplete : completeIn k (done ++ rec :: rest) = done ++ [rec] := by
    rw [hk, completeIn_append, completeIn_bare]
  rw [hcomplete] at hread
  rw [hcut, record] at hrec
  simp only [List.find?_nil, readToString, decodeText_textBytes, bind, Except.bind, pure,
    Except.pure, parseContents_bare h hr, Nat.lt_irrefl, if_false] at hrec
  have hfile : file' = textBytes (done.flatMap serialize ++
      (bare rec ++ serialize (entry (done ++ [rec]) 0 "" "main" "main" []))) := by
    rw [← List.append_assoc, textBytes_append, ← serialize_entry]
    exact (Except.ok.inj hrec).symm
  rw [hfile, readAll_blocks h (unreadable_bare_append hr (stored_entry hc _))] at hread
  have hlen := congrArg List.length (Except.ok.inj hread)
  simp at hlen

theorem survives_torn {done : List OpRecord} (rest : List OpRecord) (h : ∀ r ∈ done, Stored r)
    {tail : List Char} (htail : Unreadable tail) {file : ByteArray} {k : Nat}
    (hcut : file.extract 0 k = textBytes (done.flatMap serialize ++ tail))
    (hk : k = (done.map blockSize).sum + (textBytes tail).size)
    (hshort : completeIn (textBytes tail).size rest = []) : Survives file (done ++ rest) k := by
  have hcomplete : completeIn k (done ++ rest) = done := by
    rw [hk, completeIn_append, hshort, List.append_nil]
  refine ⟨?_, fun now desc headBefore headAfter refs hc => ?_⟩
  · rw [hcut, hcomplete]
    exact readAll_blocks h htail
  · rw [hcut, hcomplete]
    refine ⟨_, record_blocks h htail hc, ?_⟩
    have hstored : ∀ r ∈ done ++ [entry done now desc headBefore headAfter refs], Stored r := by
      intro r hr
      rcases List.mem_append.mp hr with hr | hr
      · exact h r hr
      · rw [List.mem_singleton.mp hr]
        exact stored_entry hc done
    have hread := readAll_blocks hstored unreadable_nil
    rwa [List.append_nil] at hread

/-- A cut of the log survives unless it falls inside a character or bares a terminator. -/
theorem survives_iff {file : ByteArray} {recs : List OpRecord} (h : Written file recs) {k : Nat}
    (hk : k ≤ file.size) :
    Survives file recs k ↔ (file.extract 0 k).IsValidUTF8 ∧ ¬ EndsBare recs k := by
  obtain ⟨rfl, hstored⟩ := written_blocks h
  have hcase : (textBytes (recs.flatMap serialize)).extract 0 k |>.IsValidUTF8 → ∃ done rest t,
      recs = done ++ rest ∧
      (textBytes (recs.flatMap serialize)).extract 0 k = textBytes (done.flatMap serialize ++ t) ∧
      k = (done.map blockSize).sum + (textBytes t).size ∧
      (t = [] ∨ ∃ x rest', rest = x :: rest' ∧ t <+: serialize x ∧ t ≠ serialize x) := by
    intro hv
    obtain ⟨q, hq⟩ := isValidUTF8_iff_decodeText.mp hv
    have hq := decodeText_eq_some hq
    obtain ⟨done, rest, t, hrecs, rfl, ht⟩ := prefix_flatMap_cases (prefix_of_extract hq)
    refine ⟨done, rest, t, hrecs, hq, ?_, ht⟩
    have hsize := congrArg ByteArray.size hq
    rw [ByteArray.size_extract, size_append, size_blocks done] at hsize
    omega
  constructor
  · intro hs
    have hv : (textBytes (recs.flatMap serialize)).extract 0 k |>.IsValidUTF8 := by
      have hread := hs.read
      rw [readAll, readToString] at hread
      split at hread
      · next text htext => exact isValidUTF8_iff_decodeText.mpr ⟨text, htext⟩
      · cases hread
    refine ⟨hv, ?_⟩
    rintro ⟨done, rec, rest, rfl, hsum⟩
    have hdone : ∀ r ∈ done, Stored r := fun r hr => hstored r (List.mem_append_left _ hr)
    have hrec : Stored rec := hstored rec (by simp)
    have hsize := blockSize_bare rec
    have hk' : k = (done.map blockSize).sum + (textBytes (bare rec)).size := by
      rw [List.map_append, List.sum_append, List.map_singleton, List.sum_singleton] at hsum
      omega
    refine not_survives_bare rest hdone hrec ?_ hk' hs
    have hsplit : (done ++ rec :: rest).flatMap serialize =
        (done.flatMap serialize ++ bare rec) ++ ('\n' :: rest.flatMap serialize) := by
      rw [List.flatMap_append, List.flatMap_cons, serialize_bare]
      simp
    have hlen : k = (textBytes (done.flatMap serialize ++ bare rec)).size := by
      rw [size_append, size_blocks, hk']
    rw [hsplit, hlen]
    exact extract_textBytes _ _
  · rintro ⟨hv, hbare⟩
    obtain ⟨done, rest, t, hrecs, hcut, hk', ht⟩ := hcase hv
    have hdone : ∀ r ∈ done, Stored r := fun r hr =>
      hstored r (by rw [hrecs]; exact List.mem_append_left _ hr)
    rcases ht with rfl | ⟨rec, rest', rfl, hpre, hne⟩
    · rw [hrecs] at hcut ⊢
      exact survives_torn rest hdone unreadable_nil hcut hk' (completeIn_zero rest)
    · have hrec : Stored rec := hstored rec (by rw [hrecs]; simp)
      rcases proper_prefix_cases hpre hne with rfl | htorn
      · refine absurd ⟨done, rec, rest', hrecs, ?_⟩ hbare
        have hsize := blockSize_bare rec
        rw [List.map_append, List.sum_append, List.map_singleton, List.sum_singleton]
        omega
      · rw [hrecs] at hcut ⊢
        refine survives_torn _ hdone (unreadable_torn hrec htorn) hcut hk' ?_
        rw [completeIn, if_neg (by have := size_torn htorn; omega)]

/-- One record, on `main`. -/
def firstRecord : OpRecord := entry [] 0 "first" "main" "main" []

theorem written_first : Written (textBytes (serialize firstRecord)) [firstRecord] := by
  have hc : Callable 0 "main" "main" [] := ⟨by decide, by decide, by simp, by simp⟩
  have hrec : record 0 "first" "main" "main" [] (textBytes ([].flatMap serialize ++ [])) = _ :=
    record_blocks (by simp) unreadable_nil hc
  have hw := Written.record .empty hc hrec
  simpa [firstRecord] using hw

/-- Torn in the middle of the word `head`. -/
theorem survives_iff_first : Survives (textBytes (serialize firstRecord)) [firstRecord] 25 ↔
    ((textBytes (serialize firstRecord)).extract 0 25).IsValidUTF8 ∧ ¬ EndsBare [firstRecord] 25 :=
  survives_iff written_first (by decide +kernel)

/-- Cut before its last newline, the first record is lost by the next one. -/
theorem bare_terminator_lost : ¬ ∀ (file : ByteArray) (recs : List OpRecord) (k : Nat),
    Written file recs → k ≤ file.size → Survives file recs k := by
  intro hall
  have hstored : Stored firstRecord := (written_blocks written_first).2 _ (by simp)
  have hcut : (textBytes (serialize firstRecord)).extract 0 (textBytes (bare firstRecord)).size =
      textBytes (bare firstRecord) := by
    rw [serialize_bare]
    exact extract_textBytes _ _
  refine @not_survives_bare [] _ [] (by simp) hstored _ _ hcut (Nat.zero_add _).symm
    (hall _ _ _ written_first ?_)
  rw [serialize_bare, size_append]
  exact Nat.le_add_right _ _

end SrcControl.OpLogFile
