import SrcControl.Lib.Interleaving
import SrcControl.Repo.Push

/-!
# Synchronization

`fetch`, `clone` and `push` as interleaved processes over a family of repositories.
A command advances by the operations the source performs one after another: it lists
refs, asks for a pack, lands it record by record and then writes refs, one at a time.
Between two of them any other command may run; a command may fail wherever it stands,
and one that is never scheduled again was cut there.
-/

namespace SrcControl

namespace Sync

open Reachable Transport Interleaving

variable {ι : Type} [DecidableEq ι]

abbrev World (ι : Type) := ι → Option Repository

def World.set (w : World ι) (i : ι) (r : Repository) : World ι := Function.update w i (some r)

/-- The refs a remote lists. -/
abbrev RefList := List (String × ObjectId)

/-- `local_have_tips`. -/
def localHaveTips (r : Repository) : List ObjectId :=
  ((r.refs.listHeads ++ r.refs.listRemoteTips).map (·.2)).filter r.store.contains

/-- `Repo::init`. -/
def initRepository : Repository := ⟨⟨∅⟩, ⟨∅, ∅, "main"⟩, ⟨false, false, false⟩, ⟨[], [], []⟩, false⟩

inductive Command (ι : Type)
  | fetch (dst src : ι) (remote : String) (noTranscripts : Bool)
  | clone (dst src : ι) (noTranscripts : Bool)
  | push (src dst : ι) (noTranscripts : Bool)

namespace Command

/-- Where the objects come from. -/
def source : Command ι → ι
  | .fetch _ src _ _ => src
  | .clone _ src _ => src
  | .push src _ _ => src

/-- Where they land. -/
def receiver : Command ι → ι
  | .fetch dst _ _ _ => dst
  | .clone dst _ _ => dst
  | .push _ dst _ => dst

/-- Whether the receiving side drops transcripts; a push leaves them out of the pack. -/
def skipsTranscripts : Command ι → Bool
  | .fetch _ _ _ noTranscripts => noTranscripts
  | .clone _ _ noTranscripts => noTranscripts
  | .push _ _ _ => false

end Command

inductive RefWrite
  | head (branch : String) (tip : ObjectId)
  | remote (remote branch : String) (tip : ObjectId)

namespace RefWrite

def tip : RefWrite → ObjectId
  | .head _ tip => tip
  | .remote _ _ tip => tip

def apply (r : Refs) : RefWrite → Except Error Refs
  | .head branch tip => r.writeBranchTip branch tip
  | .remote name branch tip => r.writeRemoteTip name branch tip

end RefWrite

/-- The refs a command records once the objects have landed, in order. -/
def Command.refWrites (refs : RefList) : Command ι → List RefWrite
  | .fetch _ _ remote _ => refs.map (fun h => .remote remote h.1 h.2)
  | .clone _ _ _ => refs.flatMap (fun h => [.head h.1 h.2, .remote "origin" h.1 h.2])
  | .push _ _ _ => []

/-- The branch a clone checks out: the remote's, or the first one that survived. -/
def clonedHead (r : Refs) (headBranch : String) : String :=
  if r.heads.contains headBranch then headBranch
  else ((r.heads.toList.map (·.1)).head?).getD headBranch

/-- What a landing is for. -/
inductive Goal
  | refs (refs : RefList) (headBranch : Option String)
  | branch (name : String) (tip : ObjectId) (expectedOld : Option ObjectId)

def Goal.tips : Goal → List ObjectId
  | .refs listed _ => listed.map (·.2)
  | .branch _ tip _ => [tip]

inductive Phase
  | begin
  | listed (refs : RefList) (headBranch : Option String)
  | asked (refs : RefList) (headBranch : Option String) (haves : List ObjectId)
  | tipRead (branch : String) (tip : ObjectId)
  | checked (branch : String) (tip : ObjectId) (expectedOld : Option ObjectId)
  | selecting (branch : String) (tip : ObjectId) (expectedOld : Option ObjectId)
      (todo send : List ObjectId)
  | landing (goal : Goal) (recs : List Record)
  | recording (refs : RefList) (headBranch : Option String) (writes : List RefWrite)

/-- What a command returned. -/
inductive Result (ι : Type)
  | pulled (cmd : Command ι) (out : Except Error RefList)
  | pushed (src dst : ι) (out : Except Error ObjectId)

def Command.failed (e : Error) : Command ι → Result ι
  | .push src dst _ => .pushed src dst (.error e)
  | cmd => .pulled cmd (.error e)

/-- One operation of a running command. -/
inductive Step (fuel : Nat) (idOf : Object → ObjectId) :
    World ι → Command ι × Phase → World ι → (Command ι × Phase) ⊕ Result ι → Prop
  | fail {w : World ι} {cmd : Command ι} {ph : Phase} (e : Error) :
      Step fuel idOf w (cmd, ph) w (.inr (cmd.failed e))
  -- `fetch_limited` without a promisor
  | fetchList {w : World ι} {dst src : ι} {remote : String} {nt : Bool} {d r : Repository}
      (hd : w dst = some d) (hp : d.promisor = false) (hr : w src = some r) :
      Step fuel idOf w (.fetch dst src remote nt, .begin) w
        (.inl (.fetch dst src remote nt, .listed r.refs.listRefs none))
  | fetchHaves {w : World ι} {dst src : ι} {remote : String} {nt : Bool} {d : Repository}
      {refs : RefList} {head : Option String} (hd : w dst = some d) :
      Step fuel idOf w (.fetch dst src remote nt, .listed refs head) w
        (.inl (.fetch dst src remote nt, .asked refs head (localHaveTips d)))
  -- `clone_url_limited` without a filter
  | cloneList {w : World ι} {dst src : ι} {nt : Bool} {r : Repository} (hr : w src = some r) :
      Step fuel idOf w (.clone dst src nt, .begin) w
        (.inl (.clone dst src nt, .listed r.refs.listRefs (some r.refs.head)))
  | cloneInit {w : World ι} {dst src : ι} {nt : Bool} {refs : RefList} {head : Option String}
      (hd : w dst = none) :
      Step fuel idOf w (.clone dst src nt, .listed refs head) (w.set dst initRepository)
        (.inl (.clone dst src nt, .asked refs head []))
  -- `transfer_objects_opts`: the pack is spilled and checked, then landed
  | pull {w : World ι} {cmd : Command ι} {r : Repository} {refs : RefList} {head : Option String}
      {haves : List ObjectId} {pack : List Record} (hr : w cmd.source = some r)
      (hpack : buildPack fuel r (refs.map (·.2)) haves = .ok pack)
      (hverify : pack.forM (verifyRecord idOf) = .ok ()) :
      Step fuel idOf w (cmd, .asked refs head haves) w
        (.inl (cmd, .landing (.refs refs head)
          (pack.filter (keepsRecord (droppedIds cmd.skipsTranscripts pack)))))
  | land {w : World ι} {cmd : Command ι} {d : Repository} {goal : Goal} {rec : Record}
      {recs : List Record} {store : Store} (hd : w cmd.receiver = some d)
      (h : landRecord idOf d.store rec = .ok store) :
      Step fuel idOf w (cmd, .landing goal (rec :: recs)) (w.set cmd.receiver { d with store })
        (.inl (cmd, .landing goal recs))
  -- the receiver's indexes after an ingest, whatever they then hold
  | reindex {w : World ι} {cmd : Command ι} {d : Repository} {goal : Goal} (ix : Indexes)
      (hd : w cmd.receiver = some d) :
      Step fuel idOf w (cmd, .landing goal []) (w.set cmd.receiver { d with indexes := ix })
        (.inl (cmd, .landing goal []))
  | landed {w : World ι} {cmd : Command ι} {refs : RefList} {head : Option String} :
      Step fuel idOf w (cmd, .landing (.refs refs head) []) w
        (.inl (cmd, .recording refs head (cmd.refWrites refs)))
  | record {w : World ι} {cmd : Command ι} {d : Repository} {refs : RefList} {head : Option String}
      {write : RefWrite} {writes : List RefWrite} {refs' : Refs} (hd : w cmd.receiver = some d)
      (h : write.apply d.refs = .ok refs') :
      Step fuel idOf w (cmd, .recording refs head (write :: writes))
        (w.set cmd.receiver { d with refs := refs' }) (.inl (cmd, .recording refs head writes))
  | fetchDone {w : World ι} {dst src : ι} {remote : String} {nt : Bool} {refs : RefList}
      {head : Option String} :
      Step fuel idOf w (.fetch dst src remote nt, .recording refs head []) w
        (.inr (.pulled (.fetch dst src remote nt) (.ok refs)))
  | cloneDone {w : World ι} {dst src : ι} {nt : Bool} {d : Repository} {refs : RefList}
      {headBranch : String} {refs' : Refs} (hd : w dst = some d)
      (h : d.refs.writeHead (clonedHead d.refs headBranch) = .ok refs') :
      Step fuel idOf w (.clone dst src nt, .recording refs (some headBranch) [])
        (w.set dst { d with refs := refs' }) (.inr (.pulled (.clone dst src nt) (.ok refs)))
  -- `push_opts` from a full clone
  | pushTip {w : World ι} {src dst : ι} {nt : Bool} {r : Repository} {tip : ObjectId}
      (hr : w src = some r) (hp : r.promisor = false) (ht : r.refs.headTip = .ok (some tip)) :
      Step fuel idOf w (.push src dst nt, .begin) w
        (.inl (.push src dst nt, .tipRead r.refs.head tip))
  | pushUpToDate {w : World ι} {src dst : ι} {nt : Bool} {d : Repository} {branch : String}
      {tip : ObjectId} (hd : w dst = some d) (h : Push.listedTip d branch = some tip) :
      Step fuel idOf w (.push src dst nt, .tipRead branch tip) w (.inr (.pushed src dst (.ok tip)))
  | pushCheck {w : World ι} {src dst : ι} {nt : Bool} {r d : Repository} {branch : String}
      {tip : ObjectId} (hr : w src = some r) (hd : w dst = some d)
      (hne : Push.listedTip d branch ≠ some tip)
      (hff : Push.checkFastForward fuel r.store (Push.listedTip d branch) tip = .ok ()) :
      Step fuel idOf w (.push src dst nt, .tipRead branch tip) w
        (.inl (.push src dst nt, .checked branch tip (Push.listedTip d branch)))
  | pushSelect {w : World ι} {src dst : ι} {nt : Bool} {r : Repository} {branch : String}
      {tip : ObjectId} {old : Option ObjectId} {reachable : BTreeSet ObjectId}
      (hr : w src = some r) (h : reachableObjects fuel r.store [tip] = .ok reachable) :
      Step fuel idOf w (.push src dst nt, .checked branch tip old) w
        (.inl (.push src dst nt, .selecting branch tip old
          (reachable.toList ++ (attachedIds r nt reachable.toList).1 ++
            (attachedIds r nt reachable.toList).2) []))
  | pushAsk {w : World ι} {src dst : ι} {nt : Bool} {d : Repository} {branch : String}
      {tip id : ObjectId} {old : Option ObjectId} {todo send : List ObjectId}
      (hd : w dst = some d) :
      Step fuel idOf w (.push src dst nt, .selecting branch tip old (id :: todo) send) w
        (.inl (.push src dst nt, .selecting branch tip old todo
          (if d.store.contains id then send else send ++ [id])))
  | pushPack {w : World ι} {src dst : ι} {nt : Bool} {r : Repository} {branch : String}
      {tip : ObjectId} {old : Option ObjectId} {send : List ObjectId} {pack : List Record}
      (hr : w src = some r) (hpack : writeIdsToTempPack r.store send = .ok pack)
      (hverify : pack.forM (verifyRecord idOf) = .ok ()) :
      Step fuel idOf w (.push src dst nt, .selecting branch tip old [] send) w
        (.inl (.push src dst nt, .landing (.branch branch tip old) pack))
  | pushUpdate {w : World ι} {src dst : ι} {nt : Bool} {d d' : Repository} {branch : String}
      {tip : ObjectId} {old : Option ObjectId} (hd : w dst = some d)
      (h : updateRef d branch tip old = .ok d') :
      Step fuel idOf w (.push src dst nt, .landing (.branch branch tip old) []) (w.set dst d')
        (.inr (.pushed src dst (.ok tip)))

/-- Any command may be started at any time. -/
def commands (fuel : Nat) (idOf : Object → ObjectId) :
    Program (World ι) (Command ι × Phase) (Result ι) where
  start _ p := p.2 = .begin
  step := Step fuel idOf

end Sync

end SrcControl
