import SrcControl.Lib.Fallible
import SrcControl.Lib.WholeLines
import SrcControl.Core.IdText
import SrcControl.Repo.Refs

/-!
# The files of a stopped operation

A stopped merge, pick or rebase leaves text files under `.sc/`: ids in hexadecimal, the conflicted
paths one a line, and a rebase's progress as one field a line. They are read back as they were
written unless a path, the target or the author breaks its line.
-/

namespace SrcControl.StopFiles

open LineText (lines unlines splitOnce stripPrefix parseUnsigned showNat Breaks)

/-- A stopped rebase's progress. -/
structure RebaseState where
  branch : String
  originalTip : ObjectId
  target : String
  accTip : ObjectId
  conflicted : ObjectId
  remaining : List ObjectId
  total : Nat
  author : String
  resolved : Bool
  replayed : Nat
  skipped : Nat
deriving DecidableEq, Repr

/-- The files that the three operations write. -/
structure Files where
  rebaseState : Option (List Char)
  rebaseConflicts : Option (List Char)
  rebaseDecidedRoot : Option (List Char)
  mergeHead : Option (List Char)
  mergeConflicts : Option (List Char)
  mergeDecidedRoot : Option (List Char)
  pickHead : Option (List Char)
  pickConflicts : Option (List Char)
  pickDecidedRoot : Option (List Char)
  pickMainlineBase : Option (List Char)

/-! ## Fields -/

def bad (msg : String) : Error := .badRef ("REBASE_STATE: " ++ msg)

def parseId (text : List Char) (field : String) : Except Error ObjectId :=
  match ObjectId.parse text with
  | some id => .ok id
  | none => .error (bad s!"bad id for {field}: {String.ofList text}")

def parseKv (line : List Char) (key : String) : Except Error (List Char) :=
  match splitOnce '=' line with
  | none => .error (bad s!"malformed line (expected \"{key}=...\"): {String.ofList line}")
  | some (k, v) =>
    if k ≠ key.toList then
      .error (bad s!"expected field \"{key}\", got \"{String.ofList k}\"")
    else .ok v

/-- The line of one field. -/
def kv (key : String) (value : List Char) : List Char := key.toList ++ '=' :: value

/-- The next line, which must be the field's. -/
def field (key : String) : List (List Char) → Except Error (List Char × List (List Char))
  | [] => .error (bad s!"missing {key}")
  | line :: rest => do
    let value ← parseKv line key
    .ok (value, rest)

/-- A field that files of an earlier version lack. -/
def optionalField {α : Type} (key : String) (parse : List Char → Option α) (default : α) :
    List (List Char) → Except Error (α × List (List Char))
  | [] => .ok (default, [])
  | line :: rest =>
    if (stripPrefix (kv key []) line).isSome then do
      let text ← parseKv line key
      match parse text with
      | some a => .ok (a, rest)
      | none => .error (bad s!"bad {key}: {String.ofList text}")
    else .ok (default, line :: rest)

def parseBool (text : List Char) : Option Bool :=
  if text = "true".toList then some true else if text = "false".toList then some false else none

def showBool (b : Bool) : List Char := (if b then "true" else "false").toList

/-- `usize::parse`. -/
def parseUsize (text : List Char) : Option Nat := parseUnsigned (2 ^ 64) text

def parseTotal (text : List Char) : Except Error Nat :=
  match parseUsize text with
  | some n => .ok n
  | none => .error (bad s!"bad total: {String.ofList text}")

def headerLines (st : RebaseState) : List (List Char) :=
  [kv "branch" st.branch.toList, kv "original_tip" st.originalTip.toHex,
    kv "target" st.target.toList, kv "acc_tip" st.accTip.toHex,
    kv "conflicted" st.conflicted.toHex, kv "total" (showNat st.total),
    kv "author" st.author.toList, kv "resolved" (showBool st.resolved),
    kv "replayed" (showNat st.replayed), kv "skipped" (showNat st.skipped)]

def serialize (st : RebaseState) : List Char :=
  unlines (headerLines st ++ st.remaining.map ObjectId.toHex)

/-- `deserialize`, on the lines of the text. -/
def parseLines (ls : List (List Char)) : Except Error RebaseState := do
  let (branch, ls) ← field "branch" ls
  let (originalTip, ls) ← field "original_tip" ls
  let originalTip ← parseId originalTip "original_tip"
  let (target, ls) ← field "target" ls
  let (accTip, ls) ← field "acc_tip" ls
  let accTip ← parseId accTip "acc_tip"
  let (conflicted, ls) ← field "conflicted" ls
  let conflicted ← parseId conflicted "conflicted"
  let (totalText, ls) ← field "total" ls
  let total ← parseTotal totalText
  let (author, ls) ← field "author" ls
  let (resolved, ls) ← optionalField "resolved" parseBool false ls
  let (replayed, ls) ← optionalField "replayed" parseUsize 0 ls
  let (skipped, ls) ← optionalField "skipped" parseUsize 0 ls
  let remaining ← ls.mapM (parseId · "remaining")
  .ok ⟨String.ofList branch, originalTip, String.ofList target, accTip, conflicted, remaining,
    total, String.ofList author, resolved, replayed, skipped⟩

def deserialize (text : List Char) : Except Error RebaseState := parseLines (lines text)

/-! ## Writing and reading -/

/-- `format!("{}\n", id.to_hex())`. -/
def idText (id : ObjectId) : List Char := id.toHex ++ ['\n']

/-- An id file; `what` starts the message of one that holds no id. -/
def readId (what : String) : Option (List Char) → Except Error (Option ObjectId)
  | none => .ok none
  | some text =>
    match ObjectId.parse (LineText.trim Refs.isWhitespace text) with
    | some id => .ok (some id)
    | none => .error (.badRef
        s!"{what} has bad id: {String.ofList (LineText.trim Refs.isWhitespace text)}")

def readConflicts : Option (List Char) → List String
  | none => []
  | some text => (lines text).map String.ofList

/-- `paths.join("\n")` and a newline. -/
def joinLines (paths : List String) : List Char :=
  List.intercalate ['\n'] (paths.map String.toList) ++ ['\n']

/-- What `set_conflicts` and `write_conflicts` write: nothing for no path. -/
def conflictsText (paths : List String) : List Char := if paths = [] then [] else joinLines paths

namespace Rebase

def inProgress (f : Files) : Bool := f.rebaseState.isSome

def write (f : Files) (st : RebaseState) : Files := { f with rebaseState := some (serialize st) }

def read (f : Files) : Except Error (Option RebaseState) :=
  match f.rebaseState with
  | none => .ok none
  | some text => do
    let st ← deserialize text
    .ok (some st)

def writeConflicts (f : Files) (paths : List String) : Files :=
  { f with rebaseConflicts := some (conflictsText paths) }

def writeDecidedRoot (f : Files) (tree : ObjectId) : Files :=
  { f with rebaseDecidedRoot := some (idText tree) }

/-- Left over without a rebase, the file is not read. -/
def readDecidedRoot (f : Files) : Except Error (Option ObjectId) :=
  if inProgress f then readId "REBASE_STATE: REBASE_DECIDED_ROOT" f.rebaseDecidedRoot else .ok none

end Rebase

namespace Merge

def write (f : Files) (theirs : ObjectId) (conflicts : List String)
    (decidedRoot : Option ObjectId) : Files :=
  { f with
    mergeConflicts := some (joinLines conflicts)
    mergeDecidedRoot := decidedRoot.map idText
    mergeHead := some (idText theirs) }

def setConflicts (f : Files) (paths : List String) : Files :=
  { f with mergeConflicts := some (conflictsText paths) }

def readHead (f : Files) : Except Error (Option ObjectId) := readId "MERGE_HEAD" f.mergeHead

def readDecidedRoot (f : Files) : Except Error (Option ObjectId) :=
  readId "MERGE_DECIDED_ROOT" f.mergeDecidedRoot

end Merge

namespace Pick

def write (f : Files) (picked : ObjectId) (conflicts : List String)
    (decidedRoot mainlineBase : Option ObjectId) : Files :=
  { f with
    pickConflicts := some (joinLines conflicts)
    pickDecidedRoot := decidedRoot.map idText
    pickMainlineBase := mainlineBase.map idText
    pickHead := some (idText picked) }

def setConflicts (f : Files) (paths : List String) : Files :=
  { f with pickConflicts := some (conflictsText paths) }

def readHead (f : Files) : Except Error (Option ObjectId) := readId "PICK_HEAD" f.pickHead

def readDecidedRoot (f : Files) : Except Error (Option ObjectId) :=
  readId "PICK_DECIDED_ROOT" f.pickDecidedRoot

def readMainlineBase (f : Files) : Except Error (Option ObjectId) :=
  readId "PICK_MAINLINE_BASE" f.pickMainlineBase

end Pick

/-! ## Ids -/

theorem toHex_clean {id : ObjectId} {c : Char} (h : c ∈ id.toHex) :
    Refs.isWhitespace c = false := by
  have hall : ∀ c ∈ LineText.hexChars, Refs.isWhitespace c = false := by
    simp [LineText.hexChars, Refs.isWhitespace]
  exact hall c (LineText.mem_encodeHex h)

theorem trim_idText (id : ObjectId) : LineText.trim Refs.isWhitespace (idText id) = id.toHex := by
  have hclean : ∀ c ∈ id.toHex, Refs.isWhitespace c = false := fun c hc => toHex_clean hc
  unfold LineText.trim idText
  by_cases hnil : id.toHex = []
  · rw [hnil]
    decide
  · have hdrop : (id.toHex ++ ['\n']).dropWhile Refs.isWhitespace = id.toHex ++ ['\n'] := by
      rw [List.dropWhile_eq_self_iff]
      intro hpos hws
      have hmem : (id.toHex ++ ['\n'])[0] ∈ id.toHex := by
        rw [List.getElem_append_left (List.length_pos_iff.mpr hnil)]
        exact List.getElem_mem _
      rw [hclean _ hmem] at hws
      cases hws
    rw [hdrop, List.rdropWhile_concat_pos _ _ _ (by decide)]
    refine List.rdropWhile_eq_self_iff.mpr (fun hl hws => ?_)
    rw [hclean _ (List.getLast_mem hl)] at hws
    cases hws

theorem readId_idText {id : ObjectId} (what : String) (h : id.bytes.length = 32) :
    readId what (some (idText id)) = .ok (some id) := by
  simp only [readId, trim_idText, ObjectId.parse_toHex h]

theorem readId_map {id : Option ObjectId} (what : String)
    (h : ∀ i, id = some i → i.bytes.length = 32) : readId what (id.map idText) = .ok id := by
  cases id with
  | none => rfl
  | some i => exact readId_idText what (h i rfl)

/-! ## Paths -/

theorem joinLines_eq {paths : List String} (h : paths ≠ []) :
    joinLines paths = unlines (paths.map String.toList) := by
  induction paths with
  | nil => exact absurd rfl h
  | cons p ps ih =>
    cases ps with
    | nil => simp [joinLines]
    | cons q qs =>
      have hrest := ih (by simp)
      unfold joinLines at hrest ⊢
      rw [List.map_cons, List.map_cons, List.intercalate_cons_cons, LineText.unlines_cons,
        ← List.map_cons, ← hrest]
      simp

theorem conflictsText_eq (paths : List String) :
    conflictsText paths = unlines (paths.map String.toList) := by
  unfold conflictsText
  split_ifs with h
  · rw [h]
    rfl
  · exact joinLines_eq h

/-- Paths one a line are the same paths again exactly when none breaks its line. -/
theorem readConflicts_unlines_iff {paths : List String} :
    readConflicts (some (unlines (paths.map String.toList))) = paths ↔
      ∀ p ∈ paths, ¬ Breaks p.toList := by
  have hback : (paths.map String.toList).map String.ofList = paths := by
    rw [List.map_map]
    refine (List.map_congr_left (fun p _ => ?_)).trans (List.map_id paths)
    exact String.ofList_toList
  have hinj : Function.Injective (List.map String.ofList) :=
    List.map_injective_iff.mpr (fun a b hab => String.ofList_injective hab)
  have hiff : readConflicts (some (unlines (paths.map String.toList))) = paths ↔
      lines (unlines (paths.map String.toList)) = paths.map String.toList := by
    constructor
    · intro h
      exact hinj (h.trans hback.symm)
    · intro h
      simp only [readConflicts, h, hback]
  rw [hiff, LineText.lines_unlines_iff]
  simp

theorem readConflicts_conflictsText_iff {paths : List String} :
    readConflicts (some (conflictsText paths)) = paths ↔ ∀ p ∈ paths, ¬ Breaks p.toList := by
  rw [conflictsText_eq, readConflicts_unlines_iff]

/-- A stop without a path would be read back with the empty one. -/
theorem readConflicts_joinLines_iff {paths : List String} :
    readConflicts (some (joinLines paths)) = paths ↔
      paths ≠ [] ∧ ∀ p ∈ paths, ¬ Breaks p.toList := by
  by_cases h : paths = []
  · subst h
    exact iff_of_false (by decide) (fun hne => hne.1 rfl)
  · rw [joinLines_eq h, readConflicts_unlines_iff]
    simp [h]

/-! ## The rebase's fields -/

theorem parseKv_kv {key : String} (h : '=' ∉ key.toList) (value : List Char) :
    parseKv (kv key value) key = .ok value := by
  simp [parseKv, kv, LineText.splitOnce_append value h]

theorem field_kv {key : String} (h : '=' ∉ key.toList) (value : List Char)
    (rest : List (List Char)) : field key (kv key value :: rest) = .ok (value, rest) := by
  rw [field, parseKv_kv h]
  rfl

theorem optionalField_kv {α : Type} {key : String} (h : '=' ∉ key.toList)
    {parse : List Char → Option α} {value : List Char} {a : α} (hparse : parse value = some a)
    (default : α) (rest : List (List Char)) :
    optionalField key parse default (kv key value :: rest) = .ok (a, rest) := by
  have hhead : stripPrefix (kv key []) (kv key value) = some value := by
    have hsplit : kv key value = kv key [] ++ value := by simp [kv]
    rw [hsplit, LineText.stripPrefix_append]
  rw [optionalField, hhead, parseKv_kv h]
  simp only [Option.isSome_some, if_true, bind, Except.bind, hparse]

theorem parseId_toHex {id : ObjectId} (h : id.bytes.length = 32) (what : String) :
    parseId id.toHex what = .ok id := by
  simp only [parseId, ObjectId.parse_toHex h]

theorem parseUsize_showNat {n : Nat} (h : n < 2 ^ 64) : parseUsize (showNat n) = some n :=
  LineText.parseUnsigned_showNat h

theorem parseTotal_showNat {n : Nat} (h : n < 2 ^ 64) : parseTotal (showNat n) = .ok n := by
  simp only [parseTotal, parseUsize_showNat h]

theorem parseBool_showBool (b : Bool) : parseBool (showBool b) = some b := by
  cases b <;> decide

theorem splitOnce_eq_some {sep : Char} {s a b : List Char} (h : splitOnce sep s = some (a, b)) :
    s = a ++ sep :: b := by
  have hsplit : s.takeWhile (· != sep) ++ s.dropWhile (· != sep) = s :=
    List.takeWhile_append_dropWhile
  unfold splitOnce at h
  cases hdrop : s.dropWhile (· != sep) with
  | nil =>
    rw [hdrop] at h
    cases h
  | cons c tail =>
    have hc : c = sep := by
      have hne : s.dropWhile (· != sep) ≠ [] := by
        rw [hdrop]
        exact List.cons_ne_nil c tail
      have hhead := List.head_dropWhile_not (· != sep) hne
      simpa [hdrop] using hhead
    rw [hdrop] at h hsplit
    simp only [Option.some.injEq, Prod.mk.injEq] at h
    rw [← h.1, ← h.2, ← hc, hc]
    rw [hc] at hsplit
    exact hsplit.symm

/-- The field was on the line that was read. -/
theorem field_eq_ok {key : String} {ls rest : List (List Char)} {value : List Char}
    (h : field key ls = .ok (value, rest)) : ls = kv key value :: rest := by
  cases ls with
  | nil => cases h
  | cons line ls =>
    obtain ⟨v, hv, h⟩ := Fallible.bind_ok h
    cases h
    unfold parseKv at hv
    split at hv
    · cases hv
    · rename_i k v' hsplit
      split_ifs at hv with hkey
      cases hv
      rw [splitOnce_eq_some hsplit, kv, not_not.mp hkey]

/-- What a rebase's state must fit: ids of 32 bytes and counters of 64 bits. -/
structure Fits (st : RebaseState) : Prop where
  originalTip : st.originalTip.bytes.length = 32
  accTip : st.accTip.bytes.length = 32
  conflicted : st.conflicted.bytes.length = 32
  remaining : ∀ id ∈ st.remaining, id.bytes.length = 32
  total : st.total < 2 ^ 64
  replayed : st.replayed < 2 ^ 64
  skipped : st.skipped < 2 ^ 64

theorem mapM_parseId {ids : List ObjectId} (h : ∀ id ∈ ids, id.bytes.length = 32) :
    (ids.map ObjectId.toHex).mapM (parseId · "remaining") = .ok ids := by
  induction ids with
  | nil => rfl
  | cons id ids ih =>
    rw [List.map_cons, List.mapM_cons, parseId_toHex (h id List.mem_cons_self),
      ih (fun i hi => h i (List.mem_cons_of_mem _ hi))]
    rfl

theorem parseLines_headerLines {st : RebaseState} (h : Fits st) :
    parseLines (headerLines st ++ st.remaining.map ObjectId.toHex) = .ok st := by
  unfold parseLines headerLines
  simp only [List.cons_append, List.nil_append, bind, Except.bind,
    @field_kv "branch" (by decide), @field_kv "original_tip" (by decide),
    @field_kv "target" (by decide), @field_kv "acc_tip" (by decide),
    @field_kv "conflicted" (by decide), @field_kv "total" (by decide),
    @field_kv "author" (by decide), parseId_toHex h.originalTip, parseId_toHex h.accTip,
    parseId_toHex h.conflicted, parseTotal_showNat h.total,
    @optionalField_kv _ "resolved" (by decide) _ _ _ (parseBool_showBool st.resolved),
    @optionalField_kv _ "replayed" (by decide) _ _ _ (parseUsize_showNat h.replayed),
    @optionalField_kv _ "skipped" (by decide) _ _ _ (parseUsize_showNat h.skipped),
    mapM_parseId h.remaining, String.ofList_toList]

/-- The first lines of a text that spells the state. -/
theorem parseLines_eq_ok {ls : List (List Char)} {st : RebaseState} (h : parseLines ls = .ok st) :
    ∃ a b c d e rest, ls = a :: b :: kv "target" st.target.toList :: c :: d :: e ::
      kv "author" st.author.toList :: rest := by
  unfold parseLines at h
  obtain ⟨⟨branch, l₁⟩, h₁, h⟩ := Fallible.bind_ok h
  obtain ⟨⟨tip, l₂⟩, h₂, h⟩ := Fallible.bind_ok h
  obtain ⟨_, -, h⟩ := Fallible.bind_ok h
  obtain ⟨⟨target, l₃⟩, h₃, h⟩ := Fallible.bind_ok h
  obtain ⟨⟨acc, l₄⟩, h₄, h⟩ := Fallible.bind_ok h
  obtain ⟨_, -, h⟩ := Fallible.bind_ok h
  obtain ⟨⟨conflicted, l₅⟩, h₅, h⟩ := Fallible.bind_ok h
  obtain ⟨_, -, h⟩ := Fallible.bind_ok h
  obtain ⟨⟨total, l₆⟩, h₆, h⟩ := Fallible.bind_ok h
  obtain ⟨_, -, h⟩ := Fallible.bind_ok h
  obtain ⟨⟨author, l₇⟩, h₇, h⟩ := Fallible.bind_ok h
  obtain ⟨_, -, h⟩ := Fallible.bind_ok h
  obtain ⟨_, -, h⟩ := Fallible.bind_ok h
  obtain ⟨_, -, h⟩ := Fallible.bind_ok h
  obtain ⟨_, -, h⟩ := Fallible.bind_ok h
  cases h
  rw [field_eq_ok h₁, field_eq_ok h₂, field_eq_ok h₃, field_eq_ok h₄, field_eq_ok h₅,
    field_eq_ok h₆, field_eq_ok h₇, String.toList_ofList, String.toList_ofList]
  exact ⟨_, _, _, _, _, _, rfl⟩

/-- A branch name that validation accepts breaks no line. -/
theorem not_breaks_of_valid {branch : String} (h : Refs.validateBranchName branch = .ok ()) :
    ¬ Breaks branch.toList := by
  unfold Refs.validateBranchName at h
  split_ifs at h with hbad
  simp only [not_or] at hbad
  have hclean : ∀ c ∈ branch.toList, (Refs.isWhitespace c || Refs.isControl c) = false := by
    simpa using hbad.2.2.2.2.2.2
  rintro (hn | hr)
  · have hws := hclean _ hn
    revert hws
    decide
  · have hws := hclean _ (List.mem_of_getLast? hr)
    revert hws
    decide

theorem breaks_kv {key : String} (h : '\n' ∉ key.toList) {value : List Char} :
    Breaks (kv key value) ↔ Breaks value := by
  have hlast : (kv key value).getLast? = some '\r' ↔ value.getLast? = some '\r' := by
    unfold kv
    cases value with
    | nil => simp
    | cons c cs => simp [List.getLast?_append, List.getLast?_cons_cons]
  unfold Breaks
  rw [hlast]
  simp [kv, h]

theorem not_breaks_of_clean {l : List Char} (h : ∀ c ∈ l, c ≠ '\n' ∧ c ≠ '\r') : ¬ Breaks l := by
  rintro (hn | hr)
  · exact (h _ hn).1 rfl
  · exact (h _ (List.mem_of_getLast? hr)).2 rfl

theorem not_breaks_toHex (id : ObjectId) : ¬ Breaks id.toHex := by
  have hall : ∀ c ∈ LineText.hexChars, c ≠ '\n' ∧ c ≠ '\r' := by simp [LineText.hexChars]
  exact not_breaks_of_clean (fun c hc => hall c (LineText.mem_encodeHex hc))

theorem not_breaks_showNat (n : Nat) : ¬ Breaks (showNat n) := by
  refine not_breaks_of_clean (fun c hc => ?_)
  have hdigit := LineText.showNat_isDigit hc
  constructor
  · rintro rfl
    revert hdigit
    decide
  · rintro rfl
    revert hdigit
    decide

theorem not_breaks_showBool (b : Bool) : ¬ Breaks (showBool b) := by
  cases b <;> decide

/-- Only the target and the author can break a line. -/
theorem headerLines_whole_iff {st : RebaseState}
    (hbranch : Refs.validateBranchName st.branch = .ok ()) :
    (∀ l ∈ headerLines st ++ st.remaining.map ObjectId.toHex, ¬ Breaks l) ↔
      ¬ Breaks st.target.toList ∧ ¬ Breaks st.author.toList := by
  have hids : ∀ l ∈ st.remaining.map ObjectId.toHex, ¬ Breaks l := by
    intro l hl
    obtain ⟨id, -, rfl⟩ := List.mem_map.mp hl
    exact not_breaks_toHex id
  have hrest : (∀ l ∈ headerLines st ++ st.remaining.map ObjectId.toHex, ¬ Breaks l) ↔
      ∀ l ∈ headerLines st, ¬ Breaks l := by
    constructor
    · exact fun h l hl => h l (List.mem_append_left _ hl)
    · intro h l hl
      exact (List.mem_append.mp hl).elim (h l) (hids l)
  rw [hrest]
  simp only [headerLines, List.forall_mem_cons, List.not_mem_nil, false_imp_iff, implies_true,
    and_true, @breaks_kv "branch" (by decide), @breaks_kv "original_tip" (by decide),
    @breaks_kv "target" (by decide), @breaks_kv "acc_tip" (by decide),
    @breaks_kv "conflicted" (by decide), @breaks_kv "total" (by decide),
    @breaks_kv "author" (by decide), @breaks_kv "resolved" (by decide),
    @breaks_kv "replayed" (by decide), @breaks_kv "skipped" (by decide),
    not_breaks_of_valid hbranch, not_breaks_toHex, not_breaks_showNat, not_breaks_showBool,
    not_false_eq_true, true_and]

/-- A rebase's state is read back exactly when its target and its author keep to their lines. -/
theorem deserialize_serialize_iff {st : RebaseState} (h : Fits st)
    (hbranch : Refs.validateBranchName st.branch = .ok ()) :
    deserialize (serialize st) = .ok st ↔
      ¬ Breaks st.target.toList ∧ ¬ Breaks st.author.toList := by
  rw [← headerLines_whole_iff hbranch]
  unfold deserialize serialize
  constructor
  · intro hread
    obtain ⟨a, b, c, d, e, rest, hls⟩ := parseLines_eq_ok hread
    have hnone : ∀ l ∈ headerLines st ++ st.remaining.map ObjectId.toHex, '\n' ∉ l := by
      have htarget : '\n' ∉ kv "target" st.target.toList :=
        LineText.not_mem_of_mem_lines (by rw [hls]; simp)
      have hauthor : '\n' ∉ kv "author" st.author.toList :=
        LineText.not_mem_of_mem_lines (by rw [hls]; simp)
      have hbare : ∀ {l : List Char}, ¬ Breaks l → '\n' ∉ l := fun hl hn => hl (.inl hn)
      have hkv : ∀ {key : String} {value : List Char}, '\n' ∉ key.toList → ¬ Breaks value →
          '\n' ∉ kv key value := fun hkey hvalue => hbare ((breaks_kv hkey).not.mpr hvalue)
      intro l hl
      rcases List.mem_append.mp hl with hl | hl
      · simp only [headerLines, List.mem_cons, List.not_mem_nil, or_false] at hl
        rcases hl with rfl | rfl | rfl | rfl | rfl | rfl | rfl | rfl | rfl | rfl
        · exact hkv (by decide) (not_breaks_of_valid hbranch)
        · exact hkv (by decide) (not_breaks_toHex _)
        · exact htarget
        · exact hkv (by decide) (not_breaks_toHex _)
        · exact hkv (by decide) (not_breaks_toHex _)
        · exact hkv (by decide) (not_breaks_showNat _)
        · exact hauthor
        · exact hkv (by decide) (not_breaks_showBool _)
        · exact hkv (by decide) (not_breaks_showNat _)
        · exact hkv (by decide) (not_breaks_showNat _)
      · obtain ⟨id, -, rfl⟩ := List.mem_map.mp hl
        exact hbare (not_breaks_toHex id)
    rw [LineText.lines_unlines hnone] at hls
    rw [headerLines_whole_iff hbranch]
    simp only [headerLines, List.cons_append, List.nil_append, List.map_cons, List.cons.injEq]
      at hls
    obtain ⟨-, -, htarget, -, -, -, hauthor, -⟩ := hls
    have hlast : ∀ {key : String} {value : List Char}, '\n' ∉ key.toList → '\n' ∉ value →
        LineText.stripLast '\r' (kv key value) = kv key value → ¬ Breaks value := by
      intro key value hkey hvalue hsame
      rw [← breaks_kv hkey]
      rintro (hn | hr)
      · simp [kv, hkey, hvalue] at hn
      · exact LineText.stripLast_eq_self_iff.mp hsame hr
    refine ⟨hlast (by decide) ?_ htarget, hlast (by decide) ?_ hauthor⟩
    · have hmem := hnone (kv "target" st.target.toList) (by simp [headerLines])
      intro hn
      exact hmem (by simp [kv, hn])
    · have hmem := hnone (kv "author" st.author.toList) (by simp [headerLines])
      intro hn
      exact hmem (by simp [kv, hn])
  · intro hwhole
    rw [LineText.lines_unlines_iff.mpr hwhole]
    exact parseLines_headerLines h

/-! ## The three operations -/

/-- What is kept of a stopped rebase, a stopped merge and a stopped pick. -/
structure Stops where
  rebase : RebaseState
  rebaseTree : ObjectId
  rebasePaths : List String
  theirs : ObjectId
  mergeTree : Option ObjectId
  mergePaths : List String
  picked : ObjectId
  pickTree : Option ObjectId
  mainlineBase : Option ObjectId
  pickPaths : List String

namespace Stops

/-- A branch that validation accepts, ids of 32 bytes and counters of 64 bits. -/
structure Valid (s : Stops) : Prop where
  branch : Refs.validateBranchName s.rebase.branch = .ok ()
  rebase : Fits s.rebase
  rebaseTree : s.rebaseTree.bytes.length = 32
  theirs : s.theirs.bytes.length = 32
  mergeTree : ∀ id, s.mergeTree = some id → id.bytes.length = 32
  picked : s.picked.bytes.length = 32
  pickTree : ∀ id, s.pickTree = some id → id.bytes.length = 32
  mainlineBase : ∀ id, s.mainlineBase = some id → id.bytes.length = 32

/-- Everything that was written is read back. -/
structure Survives (s : Stops) (f : Files) : Prop where
  rebase : Rebase.read (Rebase.write f s.rebase) = .ok (some s.rebase)
  rebaseTree : Rebase.readDecidedRoot (Rebase.writeDecidedRoot (Rebase.write f s.rebase)
    s.rebaseTree) = .ok (some s.rebaseTree)
  rebasePaths : readConflicts (Rebase.writeConflicts f s.rebasePaths).rebaseConflicts =
    s.rebasePaths
  theirs : Merge.readHead (Merge.write f s.theirs s.mergePaths s.mergeTree) = .ok (some s.theirs)
  mergeTree : Merge.readDecidedRoot (Merge.write f s.theirs s.mergePaths s.mergeTree) =
    .ok s.mergeTree
  mergePaths : readConflicts (Merge.write f s.theirs s.mergePaths s.mergeTree).mergeConflicts =
    s.mergePaths
  mergeLeft : readConflicts (Merge.setConflicts f s.mergePaths).mergeConflicts = s.mergePaths
  picked : Pick.readHead (Pick.write f s.picked s.pickPaths s.pickTree s.mainlineBase) =
    .ok (some s.picked)
  pickTree : Pick.readDecidedRoot (Pick.write f s.picked s.pickPaths s.pickTree s.mainlineBase) =
    .ok s.pickTree
  mainlineBase : Pick.readMainlineBase (Pick.write f s.picked s.pickPaths s.pickTree
    s.mainlineBase) = .ok s.mainlineBase
  pickPaths : readConflicts (Pick.write f s.picked s.pickPaths s.pickTree
    s.mainlineBase).pickConflicts = s.pickPaths
  pickLeft : readConflicts (Pick.setConflicts f s.pickPaths).pickConflicts = s.pickPaths

/-- A merge or a pick stops at a path, and no name, author or path breaks its line. -/
structure Whole (s : Stops) : Prop where
  target : ¬ Breaks s.rebase.target.toList
  author : ¬ Breaks s.rebase.author.toList
  rebasePaths : ∀ p ∈ s.rebasePaths, ¬ Breaks p.toList
  mergePaths : s.mergePaths ≠ [] ∧ ∀ p ∈ s.mergePaths, ¬ Breaks p.toList
  pickPaths : s.pickPaths ≠ [] ∧ ∀ p ∈ s.pickPaths, ¬ Breaks p.toList

theorem read_write_iff (f : Files) {st : RebaseState} (h : Fits st)
    (hbranch : Refs.validateBranchName st.branch = .ok ()) :
    Rebase.read (Rebase.write f st) = .ok (some st) ↔
      ¬ Breaks st.target.toList ∧ ¬ Breaks st.author.toList := by
  rw [← deserialize_serialize_iff h hbranch]
  change (deserialize (serialize st) >>= fun st => .ok (some st)) = _ ↔ _
  cases deserialize (serialize st) with
  | error e => exact iff_of_false (fun hok => by cases hok) (fun hok => by cases hok)
  | ok st' =>
    constructor
    · intro hok
      cases hok
      rfl
    · intro hok
      cases hok
      rfl

/-- A stopped operation survives its files exactly when no field breaks its line. -/
theorem readBack_iff {s : Stops} (f : Files) (h : s.Valid) : s.Survives f ↔ s.Whole := by
  constructor
  · intro hs
    obtain ⟨htarget, hauthor⟩ := (read_write_iff f h.rebase h.branch).mp hs.rebase
    exact ⟨htarget, hauthor, readConflicts_conflictsText_iff.mp hs.rebasePaths,
      readConflicts_joinLines_iff.mp hs.mergePaths, readConflicts_joinLines_iff.mp hs.pickPaths⟩
  · intro hw
    exact {
      rebase := (read_write_iff f h.rebase h.branch).mpr ⟨hw.target, hw.author⟩
      rebaseTree := readId_idText _ h.rebaseTree
      rebasePaths := readConflicts_conflictsText_iff.mpr hw.rebasePaths
      theirs := readId_idText _ h.theirs
      mergeTree := readId_map _ h.mergeTree
      mergePaths := readConflicts_joinLines_iff.mpr hw.mergePaths
      mergeLeft := readConflicts_conflictsText_iff.mpr hw.mergePaths.2
      picked := readId_idText _ h.picked
      pickTree := readId_map _ h.pickTree
      mainlineBase := readId_map _ h.mainlineBase
      pickPaths := readConflicts_joinLines_iff.mpr hw.pickPaths
      pickLeft := readConflicts_conflictsText_iff.mpr hw.pickPaths.2 }

def testId : ObjectId := ⟨List.replicate 32 7⟩

/-- Three stops at a file whose name holds a newline. -/
def brokenStops : Stops where
  rebase := ⟨"main", testId, "topic", testId, testId, [testId], 2, "ann", false, 0, 0⟩
  rebaseTree := testId
  rebasePaths := ["a\nb"]
  theirs := testId
  mergeTree := some testId
  mergePaths := ["a\nb"]
  picked := testId
  pickTree := none
  mainlineBase := none
  pickPaths := ["a\nb"]

def noFiles : Files := ⟨none, none, none, none, none, none, none, none, none, none⟩

theorem brokenStops_valid : brokenStops.Valid where
  branch := by decide +kernel
  rebase := ⟨rfl, rfl, rfl, by simp [brokenStops, testId], by decide, by decide, by decide⟩
  rebaseTree := rfl
  theirs := rfl
  mergeTree := by
    rintro id ⟨⟩
    rfl
  picked := rfl
  pickTree := by rintro id ⟨⟩
  mainlineBase := by rintro id ⟨⟩

theorem readBack_iff_broken : brokenStops.Survives noFiles ↔ brokenStops.Whole :=
  readBack_iff noFiles brokenStops_valid

/-- The one conflicted path is read back as two others. -/
theorem newline_path_lost :
    brokenStops.Valid ∧ ¬ brokenStops.Survives noFiles ∧
      readConflicts (Merge.write noFiles testId ["a\nb"] (some testId)).mergeConflicts = ["a", "b"] := by
  have hread : readConflicts (Merge.write noFiles testId ["a\nb"] (some testId)).mergeConflicts =
      ["a", "b"] := by decide
  refine ⟨brokenStops_valid, fun hs => ?_, hread⟩
  have hpaths : readConflicts (Merge.write noFiles testId ["a\nb"] (some testId)).mergeConflicts =
      ["a\nb"] := hs.mergePaths
  rw [hread] at hpaths
  revert hpaths
  decide

end Stops

end SrcControl.StopFiles
