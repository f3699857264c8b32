import Mathlib.Logic.Function.Basic
import SrcControl.Lib.Linearizability
import SrcControl.Lib.LineText
import SrcControl.Repo.Refs

/-!
# The directory bucket

A bucket is a directory: a key's value is the file at its path. Processes take the file-system
steps of their calls in any order and may die between two of them. Writers hold an advisory lock
from before they look at the file until they return; reads and deletes take none.
-/

namespace SrcControl.Objio

open Linearizability (Event)

abbrev Bytes := List UInt8

/-- A path below the root of the bucket. -/
abbrev Path := List Char

/-! ## Keys and paths -/

def isControl (c : Char) : Bool := c.toNat < 0x20 || (0x7f ≤ c.toNat && c.toNat < 0xa0)

def validateKey (key : Path) : Bool :=
  !(key.isEmpty || key.head? == some '/' || key.contains '\\' ||
    (key.splitOn '/').any (fun c => c.isEmpty || c == ".".toList || c == "..".toList) ||
    key.any (fun c => Refs.isWhitespace c || isControl c))

/-- `.cas-lock`. -/
def casLock : Path := ".cas-lock".toList

/-- The part of a file name before its last dot, unless that dot comes first. -/
def fileStem (file : List Char) : List Char :=
  match file.reverse.dropWhile (· ≠ '.') with
  | [] => file
  | [_] => file
  | _ :: before => before.reverse

/-- `path.with_extension(ext)`. -/
def withExtension (path : Path) (ext : List Char) : Path :=
  let file := path.rtakeWhile (· ≠ '/')
  path.rdropWhile (· ≠ '/') ++ fileStem file ++ '.' :: ext

def tmpPath (key : Path) (pid : Nat) : Path :=
  withExtension key ("tmp-".toList ++ LineText.showNat pid)

/-! ## The file system -/

/-- The files by path, as inodes, and the content of each inode. -/
structure Fs where
  link : Path → Option Nat
  data : Nat → Bytes
  fresh : Nat

namespace Fs

def read (fs : Fs) (p : Path) : Option Bytes := (fs.link p).map fs.data

/-- A new inode, empty, at a path. -/
def make (fs : Fs) (p : Path) : Fs :=
  ⟨Function.update fs.link p (some fs.fresh), Function.update fs.data fs.fresh [], fs.fresh + 1⟩

/-- An existing file is opened as it is. -/
def openOrCreate (fs : Fs) (p : Path) : Fs :=
  match fs.link p with
  | some _ => fs
  | none => fs.make p

/-- An existing file is emptied. -/
def create (fs : Fs) (p : Path) : Nat × Fs :=
  match fs.link p with
  | some i => (i, { fs with data := Function.update fs.data i [] })
  | none => (fs.fresh, fs.make p)

def write (fs : Fs) (i : Nat) (bytes : Bytes) : Fs :=
  { fs with data := Function.update fs.data i bytes }

def rename (fs : Fs) (src dst : Path) : Option Fs :=
  match fs.link src with
  | some i =>
    some { fs with link := Function.update (Function.update fs.link src none) dst (some i) }
  | none => none

def unlink (fs : Fs) (p : Path) : Fs := { fs with link := Function.update fs.link p none }

end Fs

/-! ## Calls -/

section Calls

variable (Tag : Type)

inductive Op
  | get (key : Path) (cachedTag : Option Tag)
  | putNew (key : Path) (bytes : Bytes)
  | putIfTag (key : Path) (bytes : Bytes) (expectedTag : Option Tag)
  | «exists» (key : Path)
  | delete (key : Path)
deriving DecidableEq, Repr

inductive Fetched
  | unchanged
  | absent
  | new (bytes : Bytes) (tag : Tag)
deriving DecidableEq, Repr

inductive Res
  | fetched (f : Fetched Tag)
  | created (b : Bool)
  | swapped (tag : Option Tag)
  | found (b : Bool)
  | deleted
  | failed
deriving DecidableEq, Repr

end Calls

variable {Tag : Type}

def Op.key : Op Tag → Path
  | .get key _ => key
  | .putNew key _ => key
  | .putIfTag key _ _ => key
  | .exists key => key
  | .delete key => key

/-- What a write is to leave at its key. -/
def Op.bytes : Op Tag → Bytes
  | .putNew _ bytes => bytes
  | .putIfTag _ bytes _ => bytes
  | _ => []

/-- How far a call has come. -/
inductive Pc (Tag : Type)
  | start
  | lockFile
  | locked
  | opened (i : Nat)
  | checked
  | created (i : Nat)
  | written
  | done (r : Res Tag)
deriving DecidableEq, Repr

structure Call (Tag : Type) where
  id : Nat
  op : Op Tag
  pc : Pc Tag
deriving DecidableEq, Repr

/-- The bucket, the holder of the lock and the call each process is in. -/
structure Config (Tag : Type) where
  fs : Fs
  lock : Option Nat
  procs : Nat → Option (Call Tag)
  nextId : Nat

/-! ## Steps -/

variable [DecidableEq Tag] (tagOf : Bytes → Tag)

/-- What `get` makes of the bytes it has read. -/
def answer (cachedTag : Option Tag) (bytes : Bytes) : Fetched Tag :=
  if cachedTag = some (tagOf bytes) then .unchanged else .new bytes (tagOf bytes)

/-- What a write returns when it is through. -/
def Op.success : Op Tag → Res Tag
  | .putIfTag _ bytes _ => .swapped (some (tagOf bytes))
  | _ => .created true

/-- One file-system step of a call, with the lock; `none` where it waits for the lock. -/
def stepCall (fs : Fs) (lock : Option Nat) (pid : Nat) (op : Op Tag) :
    Pc Tag → Option (Fs × Option Nat × Pc Tag)
  | .start =>
    match op with
    | .get key _ =>
      match fs.link key with
      | none => some (fs, lock, .done (.fetched .absent))
      | some i => some (fs, lock, .opened i)
    | .exists key => some (fs, lock, .done (.found (fs.link key).isSome))
    | .delete key => some (fs.unlink key, lock, .done .deleted)
    | _ => some (fs.openOrCreate casLock, lock, .lockFile)
  | .lockFile => if lock = none then some (fs, some pid, .locked) else none
  | .locked =>
    match op with
    | .putNew key _ =>
      if (fs.link key).isSome then some (fs, lock, .done (.created false))
      else some (fs, lock, .checked)
    | .putIfTag key _ expectedTag =>
      match fs.link key with
      | none =>
        if expectedTag = none then some (fs, lock, .checked)
        else some (fs, lock, .done (.swapped none))
      | some i => some (fs, lock, .opened i)
    | _ => none
  | .opened i =>
    match op with
    | .get _ cachedTag => some (fs, lock, .done (.fetched (answer tagOf cachedTag (fs.data i))))
    | .putIfTag _ _ expectedTag =>
      if expectedTag = some (tagOf (fs.data i)) then some (fs, lock, .checked)
      else some (fs, lock, .done (.swapped none))
    | _ => none
  | .checked =>
    let (i, fs) := fs.create (tmpPath op.key pid)
    some (fs, lock, .created i)
  | .created i => some (fs.write i op.bytes, lock, .written)
  | .written =>
    match fs.rename (tmpPath op.key pid) op.key with
    | some fs => some (fs, lock, .done (op.success tagOf))
    | none => some (fs, lock, .done .failed)
  | .done _ => none

/-- The lock without its holder `pid`. -/
def released (lock : Option Nat) (pid : Nat) : Option Nat := if lock = some pid then none else lock

inductive Move (Tag : Type)
  | invoke (pid : Nat) (op : Op Tag)
  | step (pid : Nat)
  | respond (pid : Nat)
  | die (pid : Nat)
deriving DecidableEq, Repr

/-- One move, with what a client sees of it. Closing the lock file releases the lock, at the
return of a call as at the death of its process. -/
def act (c : Config Tag) : Move Tag → Option (Config Tag × List (Event (Op Tag) (Res Tag)))
  | .invoke pid op =>
    match c.procs pid with
    | some _ => none
    | none =>
      if validateKey op.key then
        some (⟨c.fs, c.lock, Function.update c.procs pid (some ⟨c.nextId, op, .start⟩),
          c.nextId + 1⟩, [.invoke c.nextId op])
      else none
  | .step pid =>
    match c.procs pid with
    | none => none
    | some ⟨id, op, pc⟩ =>
      (stepCall tagOf c.fs c.lock pid op pc).map (fun (fs, lock, pc) =>
        (⟨fs, lock, Function.update c.procs pid (some ⟨id, op, pc⟩), c.nextId⟩, []))
  | .respond pid =>
    match c.procs pid with
    | some ⟨id, _, .done r⟩ =>
      some (⟨c.fs, released c.lock pid, Function.update c.procs pid none, c.nextId⟩,
        [.respond id r])
    | _ => none
  | .die pid =>
    match c.procs pid with
    | none => none
    | some _ => some (⟨c.fs, released c.lock pid, Function.update c.procs pid none, c.nextId⟩, [])

/-- Moves one after the other, each allowed where it is made, and what clients see of them. -/
inductive Run (allowed : Config Tag → Move Tag → Prop) (c₀ : Config Tag) :
    List (Event (Op Tag) (Res Tag)) → Config Tag → Prop
  | nil : Run allowed c₀ [] c₀
  | snoc {H ev : List (Event (Op Tag) (Res Tag))} {c c' : Config Tag} {mv : Move Tag}
      (h : Run allowed c₀ H c) (ok : allowed c mv) (hact : act tagOf c mv = some (c', ev)) :
      Run allowed c₀ (H ++ ev) c'

/-! ## What a bucket is for -/

/-- A map with create-if-absent and compare-and-swap on the tag of the value. -/
def mapApply (m : Path → Option Bytes) : Op Tag → (Path → Option Bytes) × Res Tag
  | .get key cachedTag =>
    match m key with
    | none => (m, .fetched .absent)
    | some bytes => (m, .fetched (answer tagOf cachedTag bytes))
  | .putNew key bytes =>
    match m key with
    | some _ => (m, .created false)
    | none => (Function.update m key (some bytes), .created true)
  | .putIfTag key bytes expectedTag =>
    if (m key).map tagOf = expectedTag then
      (Function.update m key (some bytes), .swapped (some (tagOf bytes)))
    else (m, .swapped none)
  | .exists key => (m, .found (m key).isSome)
  | .delete key => (Function.update m key none, .deleted)

end SrcControl.Objio
