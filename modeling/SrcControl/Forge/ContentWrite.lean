import SrcControl.Forge.GitWrite
import SrcControl.Forge.RefWrites

/-!
# Contents writes

One file changed by a commit that the server makes: up to three rounds of reading the branch,
walking and rewriting the tree, committing, and moving the ref by compare-and-swap. Pushes are not
gated, so refs move between any two commands. What a failed update meant is judged by reading the
ref again.
-/

namespace SrcControl.ContentWrite

open GitTrees GitWrite
open RefPolicy (Verb branchRef collides)

def attempts : Nat := 3

/-- A validated request. -/
structure Write where
  verb : Verb
  path : String
  bytes : Bytes
  message : String
  branch : Option String
  newBranch : Option String
  sha : Option String
  path_ok : writePathOk path = true
  content_ok : contentOk path bytes = true

def Write.comps (w : Write) : List String := SlashPath.split w.path

def Write.op (w : Write) : Option Op :=
  match w.verb, w.sha with
  | .post, _ => some .create
  | .put, some s => some (.update s)
  | .delete, some s => some (.delete s)
  | _, none => none

/-- What a round has stored. -/
structure Built where
  commit : String
  tree : String
  blob : Option String
  mode : String

/-- Why a round does not get to its commit. -/
inductive Stop
  | refused (why : Refuse)
  | internal (message : String)
  | readFailed (e : GitError)
  | writeFailed (e : WriteErr)

inductive Answer
  | published (built : Built) (old : Option String)
  | stopped (why : Stop)
  | noBranch (name : String)
  | branchExists (name : String)
  | branchConflicts (name : String)
  | denied
  | tooLong
  | insufficientStorage
  | locked
  | changedConcurrently

/-! ## One round -/

section Round

variable {R : Type} (git : Plumbing R) (identity : Identity) (w : Write)

def orFail {ε α : Type} (f : ε → Stop) : Except ε α → EStateM Stop R α
  | .ok a => pure a
  | .error e => throw (f e)

/-- The tree of the base commit. -/
def rootTree (old : Option String) : EStateM Stop R (Option String) :=
  match old with
  | none => pure none
  | some o => do
    let r ← get
    let t ← orFail .readFailed (git.commitRoot r o)
    match t with
    | some t => pure (some t)
    | none => throw (.internal "base commit has no tree")

/-- The content is stored once, when the first round has passed the checks. -/
def storeBlob (blob : Option String) : EStateM Stop R (Option String) :=
  if blob.isNone && w.verb ≠ .delete then do
    let out ← EStateM.adaptExcept .readFailed (git.hashObject w.bytes)
    pure (some (printed out))
  else pure blob

/-- A round of `run` from the base commit `old` to the new commit. -/
def buildCommit (op : Op) (old blob : Option String) : EStateM Stop R Built := do
  let root ← rootTree git old
  let r ← get
  let found ← orFail .writeFailed (walk git r root w.comps totalListing)
  let prev ← orFail .refused (check op w.comps found.1)
  let blob ← storeBlob git w blob
  let mode := prev.getD "100644"
  let tree ← EStateM.adaptExcept .writeFailed
    (rebuild git found.1 w.comps (blob.map (fun b => (mode, b))))
  let out ← EStateM.adaptExcept .readFailed (git.commitTree tree old w.message identity)
  pure ⟨printed out, tree, blob, mode⟩

end Round

/-! ## What a failed update meant -/

inductive Outcome
  | done
  | lost
  | lostAfterBackoff
  | gone
  | exists
  | dfConflict
  | fatal

def contains (s part : String) : Bool := decide (part.toList <:+: s.toList)

def classify (expectedOld : Option String) (bootstrap : Bool) (new : String) (now : Option String)
    (stderr : String) : Outcome :=
  if now = some new then .done
  else
    let locked := contains stderr ".lock" &&
      (contains stderr "File exists" || contains stderr "Unable to create")
    match expectedOld, now with
    | some _, none => .gone
    | some old, some cur =>
      if cur ≠ old then .lost else if locked then .lostAfterBackoff else .fatal
    | none, some _ => if bootstrap then .lost else .exists
    | none, none =>
      if locked then .lostAfterBackoff
      else if contains stderr "cannot lock ref" && contains stderr "exists" then .dfConflict
      else .fatal

/-! ## The rounds -/

structure World (R : Type) where
  repo : R
  refs : RefPolicy.Refs

/-- The rounds that are over, whether the last one was lost to a lock, and the stored content. -/
structure Rounds where
  attempt : Nat
  locked : Bool
  blob : Option String

/-- Where `run` is between two commands. -/
inductive Phase
  | top (k : Rounds)
  | based (k : Rounds) (old : Option String)
  | clear (k : Rounds) (old : Option String)
  | built (k : Rounds) (old : Option String) (b : Built)
  | failed (k : Rounds) (old : Option String) (b : Built) (stderr : String)
  | seen (k : Rounds) (old : Option String) (b : Built) (stderr : String) (now : Option String)
  | answered (a : Answer)

section Run

variable {R : Type} (git : Plumbing R) (identity : Identity) (defaultBranch : String) (w : Write)
  (op : Op)

def Write.base : String := w.branch.getD defaultBranch

def Write.fresh : Option String := w.newBranch.filter (fun n => n ≠ w.base defaultBranch)

def Write.target : String := (w.fresh defaultBranch).getD (w.base defaultBranch)

/-- The first commit of a repository, on a default branch that is not born yet. -/
def Write.bootstrap (old : Option String) : Bool :=
  old.isNone && w.verb = .post && (w.fresh defaultBranch).isNone &&
    w.base defaultBranch = defaultBranch

def Write.creating (old : Option String) : Bool :=
  (w.fresh defaultBranch).isSome || w.bootstrap defaultBranch old

/-- The ref that moves. -/
def Write.full (old : Option String) : String :=
  if w.creating defaultBranch old then branchRef (w.target defaultBranch)
  else branchRef (w.base defaultBranch)

/-- What the ref must hold for it to move. -/
def Write.expected (old : Option String) : Option String :=
  if w.creating defaultBranch old then none else old

def afterRead (k : Rounds) (old : Option String) : Phase :=
  if old.isNone && !w.bootstrap defaultBranch old then
    .answered (.noBranch (w.base defaultBranch))
  else .based k old

def afterNames (k : Rounds) (old : Option String) (n : String) (names : List String) : Phase :=
  match collides names n with
  | some true => .answered (.branchExists n)
  | some false => .answered (.branchConflicts n)
  | none => .clear k old

def afterRounds (k : Rounds) : Answer := if k.locked then .locked else .changedConcurrently

/-- The end of a round in which the ref did not move for `update-ref`; `landed` when the commit is
in the history of the tip that was read. -/
def afterFailure (k : Rounds) (old : Option String) (b : Built) (stderr : String)
    (now : Option String) (landed : Bool) : Phase :=
  let seen := if landed then some b.commit else now
  match classify (w.expected defaultBranch old) (w.bootstrap defaultBranch old) b.commit seen
    stderr with
  | .done => .answered (.published b old)
  | .lost => .top ⟨k.attempt + 1, false, b.blob⟩
  | .lostAfterBackoff => .top ⟨k.attempt + 1, true, b.blob⟩
  | .gone => .answered (.noBranch (w.base defaultBranch))
  | .exists => .answered (.branchExists (w.target defaultBranch))
  | .dfConflict => .answered (.branchConflicts (w.target defaultBranch))
  | .fatal => .answered (.stopped (.internal "could not update the branch"))

/-- What a step is remembered for. -/
inductive Mark
  | none
  | made (commit : String)
  | landed (commit : String)

/-- One command of `run`. `update-ref` may refuse for reasons of its own, and a killed one may have
moved the ref or not. The clock, the disk and the protection rules may stop the write. -/
inductive Does : World R → Phase → Mark → World R → Phase → Prop
  | tooLong {s : World R} {k : Rounds} : Does s (.top k) .none s (.answered .tooLong)
  | ended {s : World R} {k : Rounds} (h : attempts ≤ k.attempt) :
      Does s (.top k) .none s (.answered (afterRounds k))
  | readBase {s : World R} {k : Rounds} (h : k.attempt < attempts) :
      Does s (.top k) .none s
        (afterRead defaultBranch w k (s.refs (branchRef (w.base defaultBranch))))
  | readBaseFailed {s : World R} {k : Rounds} {e : GitError} :
      Does s (.top k) .none s (.answered (.stopped (.readFailed e)))
  | noNewBranch {s : World R} {k : Rounds} {old : Option String}
      (h : w.fresh defaultBranch = Option.none) : Does s (.based k old) .none s (.clear k old)
  | readNames {s : World R} {k : Rounds} {old : Option String} {n : String} {names : List String}
      (h : w.fresh defaultBranch = some n)
      (hnames : ∀ b, b ∈ names ↔ (s.refs (branchRef b)).isSome) :
      Does s (.based k old) .none s (afterNames k old n names)
  | readNamesFailed {s : World R} {k : Rounds} {old : Option String} {e : GitError} :
      Does s (.based k old) .none s (.answered (.stopped (.readFailed e)))
  | build {s : World R} {k : Rounds} {old : Option String} {b : Built} {r : R}
      (h : buildCommit git identity w op old k.blob s.repo = .ok b r) :
      Does s (.clear k old) (.made b.commit) ⟨r, s.refs⟩ (.built k old b)
  | buildFailed {s : World R} {k : Rounds} {old : Option String} {why : Stop} {r : R}
      (h : buildCommit git identity w op old k.blob s.repo = .error why r) :
      Does s (.clear k old) .none ⟨r, s.refs⟩ (.answered (.stopped why))
  | stopped {s : World R} {k : Rounds} {old : Option String} {r : R} {a : Answer}
      (ha : a = .tooLong ∨ a = .insufficientStorage) :
      Does s (.clear k old) .none ⟨r, s.refs⟩ (.answered a)
  | notPublished {s : World R} {k : Rounds} {old : Option String} {b : Built} {a : Answer}
      (ha : a = .tooLong ∨ a = .denied ∨ ∃ e, a = .stopped (.internal e)) :
      Does s (.built k old b) .none s (.answered a)
  | moved {s : World R} {k : Rounds} {old : Option String} {b : Built}
      (h : s.refs (w.full defaultBranch old) = w.expected defaultBranch old) :
      Does s (.built k old b) (.landed b.commit)
        ⟨s.repo, Function.update s.refs (w.full defaultBranch old) (some b.commit)⟩
        (.answered (.published b old))
  | notMoved {s : World R} {k : Rounds} {old : Option String} {b : Built} {stderr : String} :
      Does s (.built k old b) .none s (.failed k old b stderr)
  | killed {s : World R} {k : Rounds} {old : Option String} {b : Built}
      (h : s.refs (w.full defaultBranch old) = w.expected defaultBranch old) :
      Does s (.built k old b) (.landed b.commit)
        ⟨s.repo, Function.update s.refs (w.full defaultBranch old) (some b.commit)⟩
        (.failed k old b "update-ref timed out")
  | updateFailed {s : World R} {k : Rounds} {old : Option String} {b : Built} {e : GitError} :
      Does s (.built k old b) .none s (.answered (.stopped (.readFailed e)))
  | updateLost {s : World R} {k : Rounds} {old : Option String} {b : Built} {e : GitError}
      (h : s.refs (w.full defaultBranch old) = w.expected defaultBranch old) :
      Does s (.built k old b) (.landed b.commit)
        ⟨s.repo, Function.update s.refs (w.full defaultBranch old) (some b.commit)⟩
        (.answered (.stopped (.readFailed e)))
  | reread {s : World R} {k : Rounds} {old : Option String} {b : Built} {stderr : String} :
      Does s (.failed k old b stderr) .none s
        (.seen k old b stderr (s.refs (w.full defaultBranch old)))
  | rereadFailed {s : World R} {k : Rounds} {old : Option String} {b : Built} {stderr : String}
      {e : GitError} :
      Does s (.failed k old b stderr) .none s (.answered (.stopped (.readFailed e)))
  | judged {s : World R} {k : Rounds} {old : Option String} {b : Built} {stderr : String}
      {now : Option String} {landed : Bool}
      (h : ∀ t, now = some t → t ≠ b.commit → git.isAncestor s.repo b.commit t = .ok landed)
      (hnone : (∀ t, now = some t → t = b.commit) → landed = false) :
      Does s (.seen k old b stderr now) .none s
        (afterFailure defaultBranch w k old b stderr now landed)
  | judgeFailed {s : World R} {k : Rounds} {old : Option String} {b : Built} {stderr : String}
      {now : Option String} {e : GitError} :
      Does s (.seen k old b stderr now) .none s (.answered (.stopped (.readFailed e)))

/-- A write on its way. What is remembered: the tips that the target branch has had, the newest
first, the commits the write has made, and those that its updates have put on the branch. -/
structure Config (R : Type) where
  world : World R
  phase : Phase
  tips : List (Option String)
  made : List String
  landed : List String

def Config.start (s : World R) : Config R :=
  ⟨s, .top ⟨0, false, none⟩, [s.refs (branchRef (w.target defaultBranch))], [], []⟩

def remember (c : Config R) (mark : Mark) (s : World R) (p : Phase) : Config R where
  world := s
  phase := p
  tips := s.refs (branchRef (w.target defaultBranch)) :: c.tips
  made := match mark with
    | .made commit => commit :: c.made
    | _ => c.made
  landed := match mark with
    | .landed commit => commit :: c.landed
    | _ => c.landed

/-- The write takes a step, or others move any refs and store what they like; until it answers. -/
inductive Step : Config R → Config R → Prop
  | own {c : Config R} {mark : Mark} {s : World R} {p : Phase}
      (h : Does git identity defaultBranch w op c.world c.phase mark s p) :
      Step c (remember defaultBranch w c mark s p)
  | others {c : Config R} {s : World R} (hopen : ∀ a, c.phase ≠ .answered a)
      (hkeep : Keeps (git.trees c.world.repo) (git.trees s.repo)) :
      Step c (remember defaultBranch w c .none s c.phase)

abbrev Run : Config R → Config R → Prop :=
  Relation.ReflTransGen (Step git identity defaultBranch w op)

end Run

end SrcControl.ContentWrite
