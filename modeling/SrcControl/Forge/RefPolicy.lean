import Mathlib.Data.List.Basic
import SrcControl.Forge.Merges
import SrcControl.Lib.Fallible
import SrcControl.Lib.LineText
import SrcControl.Lib.SlashPath
import SrcControl.Lib.TextReader

/-!
# Who may move a ref

The ref-update policy that every mutation path shares, and the `pre-receive` hook that judges the
update lines of a push by it. The hook also keeps the head of an open pull request whose branch
the push deletes.
-/

namespace SrcControl.RefPolicy

open SlashPath Fallible

abbrev Bytes := List UInt8

/-- The operations of the standard library on text that the policy calls. -/
structure Text where
  lowercase : String → String
  debug : String → String

/-- The ids that the refs of a repository hold. -/
abbrev Refs := String → Option String

/-- What git answers. An update of a ref is refused for reasons of git's own. -/
structure Git where
  parents : String → List String
  isAncestor : String → String → Except String Bool
  wellFormed : String → Bool
  accepts : Refs → String → Option String → Except String Unit
  isAncestor_sound : ∀ old new, isAncestor old new = .ok true → Forge.Ancestor parents old new

/-! ## The policy -/

section Policy

variable (text : Text)

def isDelete (new : String) : Bool := new ≠ "" && new.toList.all (· = '0')

def sameBranchName (a b : String) : Bool := text.lowercase a = text.lowercase b

def checkUpdate (name new defaultBranch : String) : Except String Unit :=
  match stripPrefix name "refs/heads/" with
  | some branch =>
    if isDelete new && sameBranchName text branch defaultBranch then
      .error s!"refusing to delete the default branch {branch}"
    else .ok ()
  | none =>
    if startsWith name "refs/tags/" then .ok ()
    else .error s!"refusing to update {name}: only refs/heads/* and refs/tags/* are writable"

structure Rule where
  branch : String
  enablePush : Bool
deriving DecidableEq

def forBranch (rules : List Rule) (name : String) : Option Rule :=
  rules.find? (fun r => sameBranchName text r.branch name)

def checkProtectedPush (rules : List Rule) (branch old new : String) (isFf : Except String Bool) :
    Except String Unit :=
  match forBranch text rules branch with
  | none => .ok ()
  | some rule =>
    if rule.enablePush = false then
      .error s!"refusing to update protected branch {branch}: direct pushes are not allowed"
    else if isDelete new then .error s!"refusing to delete protected branch {branch}"
    else if isDelete old then .ok ()
    else match isFf with
      | .ok true => .ok ()
      | .ok false => .error s!"refusing to force-push protected branch {branch}"
      | .error e => .error
        s!"refusing to update protected branch {branch}: cannot tell whether it is a fast-forward ({e})"

def checkContentsWrite (rules : List Rule) (target : String) (_creating : Bool) :
    Except String Unit :=
  match forBranch text rules target with
  | some r => if r.enablePush = false then .error s!"branch {target} is protected" else .ok ()
  | none => .ok ()

def checkBranchDelete (rules : List Rule) (name : String) : Except String Unit :=
  match forBranch text rules name with
  | some _ => .error s!"branch {name} is protected and cannot be deleted"
  | none => .ok ()

end Policy

def branchRef (name : String) : String := "refs/heads/" ++ name

/-! ## The hook -/

/-- `String::from_utf8` of one line. -/
def decodeLine (l : Bytes) : Except String String :=
  match String.fromUTF8? ⟨l.toArray⟩ with
  | some s => .ok s
  | none => .error "an update line is not valid UTF-8"

def readUpdates (r : Except String Bytes) : Except String (List String) :=
  match r with
  | .error e => .error s!"cannot read the update lines: {e}"
  | .ok raw => ((raw.splitOn 10).filter (fun l => !l.isEmpty)).mapM decodeLine

/-- `splitn(3, ' ')` where it yields three parts. -/
def fields (l : String) : Option (String × String × String) :=
  match LineText.splitOnce ' ' l.toList with
  | none => none
  | some (old, rest) =>
    match LineText.splitOnce ' ' rest with
    | none => none
    | some (new, name) => some (String.ofList old, String.ofList new, String.ofList name)

section Hook

variable (text : Text) (git : Git)

/-- The verdict of `decide` on one line. -/
def lineVerdict (defaultBranch : String) (rules : List Rule)
    (isFf : String → String → Except String Bool) (l : String) : Except String Unit :=
  match fields l with
  | none => .error s!"refusing the push: malformed update line {text.debug l}"
  | some (old, new, name) =>
    if name = "" then .error s!"refusing the push: malformed update line {text.debug l}"
    else do
      checkUpdate text name new defaultBranch
      match stripPrefix name "refs/heads/" with
      | some branch => checkProtectedPush text rules branch old new (isFf old new)
      | none => .ok ()

def refusal (verdict : Except String Unit) : Option String :=
  match verdict with
  | .ok _ => none
  | .error e => some e

def decidePush (lines : List String) (defaultBranch : String) (live : Bool) (rules : List Rule)
    (isFf : String → String → Except String Bool) : List String :=
  if live then lines.filterMap (fun l => refusal (lineVerdict text defaultBranch rules isFf l))
  else ["refusing the push: the repository is not available"]

structure RepoInfo where
  defaultBranch : String
  live : Bool
  rules : List Rule

/-- An open pull request, as far as the hook reads it. -/
structure OpenPull where
  number : Nat
  headRef : String
deriving DecidableEq

/-- What a run of the hook is given: whether its variables are set, what the object directories
that git names come to, and the answers of the database. -/
structure HookEnv where
  vars : Bool
  gitBin : Bool
  objectDirs : Except String Unit
  lookup : Except String RepoInfo
  openPulls : Except String (List OpenPull)

def isAsciiHexDigit (c : Char) : Bool :=
  c.isDigit || ('a' ≤ c && c ≤ 'f') || ('A' ≤ c && c ≤ 'F')

def fullId (s : String) : Bool :=
  (s.toList.length = 40 || s.toList.length = 64) && s.toList.all isAsciiHexDigit

def isFfIn (env : HookEnv) (old new : String) : Except String Bool :=
  if !fullId old || !fullId new then .error "malformed object id"
  else do
    env.objectDirs
    git.isAncestor old new

def retentionRef (number : Nat) : String := s!"refs/forge/pull/{number}/head"

/-- `update-ref` without an expected value. -/
def retain (number : Nat) (oid : String) : EStateM String Refs Unit := fun refs =>
  match git.accepts refs (retentionRef number) (some oid) with
  | .ok _ => .ok () (Function.update refs (retentionRef number) (some oid))
  | .error e => .error e refs

/-- The tip and the branch that a line deletes. -/
def deletedHead (l : String) : Option (String × String) :=
  match fields l with
  | none => none
  | some (old, new, name) =>
    if isDelete new && !isDelete old then (stripPrefix name "refs/heads/").map (fun b => (old, b))
    else none

def retainDeletedHeads (env : HookEnv) (lines : List String) : EStateM String Refs Unit :=
  let deletes := lines.filterMap deletedHead
  if deletes.isEmpty then pure ()
  else if env.gitBin = false then throw "FORGE_GIT_BIN is not set"
  else match env.openPulls with
    | .error e => throw e
    | .ok opened => deletes.forM (fun d => (opened.filter (fun p => p.headRef = d.2)).forM (fun p =>
        if fullId d.1 then retain git p.number d.1 else throw "malformed object id"))

/-- The `is_ff` that `run` gives to `decide`. -/
def hookIsFf (env : HookEnv) (old new : String) : Except String Bool :=
  if env.gitBin then isFfIn git env old new else .error "FORGE_GIT_BIN is not set"

/-- `run`: what the hook prints, and the refs that it leaves. It exits with zero, which lets the
push through, when it prints nothing. -/
def preReceive (env : HookEnv) (stdin : Except String Bytes) (refs : Refs) : List String × Refs :=
  if env.vars = false then
    (["sc-forge pre-receive: refusing the push: missing FORGE_DATA_DIR or FORGE_REPO_ID"], refs)
  else match readUpdates stdin with
    | .error e => ([s!"sc-forge pre-receive: refusing the push: {e}"], refs)
    | .ok lines => match env.lookup with
      | .error e => ([s!"sc-forge pre-receive: refusing the push: {e}"], refs)
      | .ok info =>
        match decidePush text lines info.defaultBranch info.live info.rules (hookIsFf git env) with
        | [] => match retainDeletedHeads git env lines refs with
          | .ok _ refs' => ([], refs')
          | .error e refs' =>
            ([s!"refusing the push: cannot keep the head of a pull request ({e})"], refs')
        | refusals => (refusals, refs)

end Hook

/-! ## What an accepted line has passed -/

variable {text : Text} {git : Git}

theorem fullId_space {s : String} (h : fullId s = true) : ' ' ∉ s.toList := by
  rw [fullId, Bool.and_eq_true, List.all_eq_true] at h
  intro hin
  exact absurd (h.2 _ hin) (by decide)

theorem fields_line {old new name : String} (hold : ' ' ∉ old.toList) (hnew : ' ' ∉ new.toList) :
    fields (old ++ " " ++ new ++ " " ++ name) = some (old, new, name) := by
  have hlist : (old ++ " " ++ new ++ " " ++ name).toList =
      old.toList ++ ' ' :: (new.toList ++ ' ' :: name.toList) := by
    simp [String.toList_append]
  rw [fields, hlist, LineText.splitOnce_append _ hold]
  simp only [LineText.splitOnce_append _ hnew, String.ofList_toList]

theorem stripPrefix_branchRef (b : String) : stripPrefix (branchRef b) "refs/heads/" = some b :=
  stripPrefix_eq_some_iff.mpr rfl

theorem branchRef_injective : Function.Injective branchRef := by
  intro a b h
  have hb := stripPrefix_branchRef b
  rw [← h, stripPrefix_branchRef] at hb
  exact Option.some.inj hb

/-- A ruled branch is pushed only to create it or to move it forward. -/
theorem checkProtectedPush_ok {rules : List Rule} {branch old new : String}
    {isFf : Except String Bool} (hrule : (forBranch text rules branch).isSome)
    (h : checkProtectedPush text rules branch old new isFf = .ok ()) :
    isDelete new = false ∧ (isDelete old = true ∨ isFf = .ok true) := by
  obtain ⟨rule, hr⟩ := Option.isSome_iff_exists.mp hrule
  unfold checkProtectedPush at h
  simp only [hr] at h
  split_ifs at h with hpush hnew hold
  · exact ⟨by simpa using hnew, .inl hold⟩
  · refine ⟨by simpa using hnew, .inr ?_⟩
    split at h
    · rfl
    · cases h
    · cases h

/-- An update is to a branch or a tag, and deletes no name of the default branch. -/
theorem checkUpdate_ok {name new defaultBranch : String}
    (h : checkUpdate text name new defaultBranch = .ok ()) :
    (∃ branch, name = branchRef branch ∧
      (isDelete new = true → sameBranchName text branch defaultBranch = false)) ∨
      startsWith name "refs/tags/" = true := by
  rw [checkUpdate] at h
  split at h
  · rename_i branch hb
    refine .inl ⟨branch, stripPrefix_eq_some_iff.mp hb, fun hdel => ?_⟩
    split_ifs at h with hc
    rw [hdel, Bool.true_and] at hc
    simpa using hc
  · split_ifs at h with ht
    exact .inr ht

theorem lineVerdict_ok {defaultBranch : String} {rules : List Rule}
    {isFf : String → String → Except String Bool} {l old new name : String}
    (hf : fields l = some (old, new, name))
    (h : lineVerdict text defaultBranch rules isFf l = .ok ()) :
    checkUpdate text name new defaultBranch = .ok () ∧ ∀ branch, name = branchRef branch →
      checkProtectedPush text rules branch old new (isFf old new) = .ok () := by
  rw [lineVerdict, hf] at h
  simp only at h
  split_ifs at h
  obtain ⟨⟨⟩, hupdate, h⟩ := bind_ok h
  refine ⟨hupdate, ?_⟩
  rintro branch rfl
  rw [stripPrefix_branchRef] at h
  exact h

theorem decidePush_nil {lines : List String} {defaultBranch : String} {live : Bool}
    {rules : List Rule} {isFf : String → String → Except String Bool}
    (h : decidePush text lines defaultBranch live rules isFf = []) :
    ∀ l ∈ lines, lineVerdict text defaultBranch rules isFf l = .ok () := by
  intro l hl
  rw [decidePush] at h
  split_ifs at h
  have hnone := List.filterMap_eq_nil_iff.mp h l hl
  cases hv : lineVerdict text defaultBranch rules isFf l with
  | ok u => rfl
  | error e =>
    rw [hv, refusal] at hnone
    cases hnone

/-- The bytes of a text. -/
def utf8 (s : String) : Bytes := s.toByteArray.data.toList

theorem decodeLine_ok {l : Bytes} {s : String} : decodeLine l = .ok s ↔ utf8 s = l := by
  rw [utf8, ← ByteReader.fromUTF8_bytes, decodeLine]
  cases String.fromUTF8? ⟨l.toArray⟩ <;> simp

/-- A line that git sent is among those the hook judged. -/
theorem mem_readUpdates {raw : Bytes} {lines : List String} {s : String}
    (h : readUpdates (.ok raw) = .ok lines) (hs : s ≠ "") (hin : utf8 s ∈ raw.splitOn 10) :
    s ∈ lines := by
  refine (mem_of_mapM_ok h s).mpr ⟨utf8 s, List.mem_filter.mpr ⟨hin, ?_⟩, decodeLine_ok.mpr rfl⟩
  have hne : utf8 s ≠ [] := fun hnil => hs (by
    have hempty : utf8 "" = utf8 s := by rw [hnil]; rfl
    exact Except.ok.inj ((decodeLine_ok.mpr rfl).symm.trans (decodeLine_ok.mpr hempty)))
  simpa using hne

/-! ## What the hook writes -/

/-- `refs'` differs from `refs` in the retention refs of open pull requests whose head a line
deletes, and there holds the tip. -/
def Retained (opened : List OpenPull) (heads : List (String × String)) (refs refs' : Refs) : Prop :=
  ∀ name, refs' name = refs name ∨ ∃ p ∈ opened, ∃ d ∈ heads, p.headRef = d.2 ∧
    name = retentionRef p.number ∧ refs' name = some d.1

theorem Retained.refl (opened : List OpenPull) (heads : List (String × String)) (refs : Refs) :
    Retained opened heads refs refs := fun _ => .inl rfl

variable {env : HookEnv} {stdin : Except String Bytes} {refs refs' : Refs} {lines : List String}
  {refusals : List String}

theorem retain_preserves {opened : List OpenPull} {heads : List (String × String)} {p : OpenPull}
    {d : String × String} (hp : p ∈ opened) (hd : d ∈ heads) (href : p.headRef = d.2) :
    Preserves (Retained opened heads refs) (retain git p.number d.1) := by
  intro refs' h
  rw [retain]
  cases hacc : git.accepts refs' (retentionRef p.number) (some d.1) with
  | error e => exact h
  | ok u =>
    intro name
    by_cases hname : name = retentionRef p.number
    · exact .inr ⟨p, hp, d, hd, href, hname, by rw [hname, Function.update_self]⟩
    · rw [Function.update_of_ne hname]
      exact h name

theorem retainDeletedHeads_preserves (git : Git) (lines : List String) {opened : List OpenPull}
    (h : env.openPulls = .ok opened) :
    Preserves (Retained opened (lines.filterMap deletedHead) refs)
      (retainDeletedHeads git env lines) := by
  rw [retainDeletedHeads, h]
  refine .ite (.pure ()) (.ite (.throw _) (.forM (fun d hd => .forM (fun p hp => ?_))))
  rw [List.mem_filter, decide_eq_true_eq] at hp
  exact .ite (retain_preserves hp.1 hd hp.2) (.throw _)

/-- The refs of the result, whatever it is. -/
def stateOf {ε α : Type} : EStateM.Result ε Refs α → Refs
  | .ok _ s => s
  | .error _ s => s

theorem retainDeletedHeads_retained (git : Git) (env : HookEnv) (lines : List String)
    (refs : Refs) : ∃ opened,
    (env.openPulls = .ok opened ∨ opened = []) ∧ Retained opened (lines.filterMap deletedHead) refs
      (stateOf (retainDeletedHeads git env lines refs)) := by
  cases h : env.openPulls with
  | error e =>
    refine ⟨[], .inr rfl, ?_⟩
    have hpres : Preserves (Retained [] (lines.filterMap deletedHead) refs)
        (retainDeletedHeads git env lines) := by
      rw [retainDeletedHeads, h]
      exact .ite (.pure ()) (.ite (.throw _) (.throw _))
    have hrun := hpres refs (.refl _ _ _)
    cases hr : retainDeletedHeads git env lines refs <;> rw [hr] at hrun <;> exact hrun
  | ok opened =>
    refine ⟨opened, .inl rfl, ?_⟩
    have hrun := retainDeletedHeads_preserves git lines h refs (.refl _ _ _)
    cases hr : retainDeletedHeads git env lines refs <;> rw [hr] at hrun <;> exact hrun

/-- A line of the push is refused, or is not text. -/
def LineRefused (text : Text) (git : Git) (env : HookEnv) (stdin : Except String Bytes) : Prop :=
  (∃ e, readUpdates stdin = .error e) ∨ ∃ lines info, readUpdates stdin = .ok lines ∧
    env.lookup = .ok info ∧ ∃ l ∈ lines,
      lineVerdict text info.defaultBranch info.rules (hookIsFf git env) l ≠ .ok ()

/-- The hook refuses and leaves the refs alone, or every line has passed. -/
theorem preReceive_cases (text : Text) (git : Git) (env : HookEnv) (stdin : Except String Bytes)
    (refs : Refs) :
    (∃ refusals, refusals ≠ [] ∧ preReceive text git env stdin refs = (refusals, refs)) ∨
    ∃ lines info, readUpdates stdin = .ok lines ∧ env.lookup = .ok info ∧
      (∀ l ∈ lines, lineVerdict text info.defaultBranch info.rules (hookIsFf git env) l = .ok ()) ∧
      (preReceive text git env stdin refs).2 = stateOf (retainDeletedHeads git env lines refs) := by
  unfold preReceive
  split_ifs with hvars
  · exact .inl ⟨_, by simp, rfl⟩
  · cases hread : readUpdates stdin with
    | error e => exact .inl ⟨_, by simp, rfl⟩
    | ok lines =>
      cases hlook : env.lookup with
      | error e => exact .inl ⟨_, by simp, rfl⟩
      | ok info =>
        simp only
        split
        · rename_i hnil
          refine .inr ⟨lines, info, rfl, rfl, decidePush_nil hnil, ?_⟩
          cases hr : retainDeletedHeads git env lines refs <;> rfl
        · rename_i hne
          exact .inl ⟨_, hne, rfl⟩

theorem preReceive_refused (h : LineRefused text git env stdin) (refs : Refs) :
    ∃ refusals, refusals ≠ [] ∧ preReceive text git env stdin refs = (refusals, refs) := by
  refine (preReceive_cases text git env stdin refs).resolve_right ?_
  rintro ⟨lines, info, hread, hlook, hok, -⟩
  rcases h with ⟨e, he⟩ | ⟨lines', info', hread', hlook', l, hl, hne⟩
  · rw [hread] at he
    cases he
  · obtain rfl := Except.ok.inj (hread.symm.trans hread')
    obtain rfl := Except.ok.inj (hlook.symm.trans hlook')
    exact hne (hok l hl)

end SrcControl.RefPolicy
