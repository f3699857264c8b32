import SrcControl.Core.PackExact
import SrcControl.Core.Store
import SrcControl.Lib.CrashTrace

/-!
# The directory of a persistent store

Loose files, sharded or flat, and packs with their indexes. An open store keeps what it has read
and an index of the packs; it prefers what it has read, then a loose file, then a pack. Every file
operation may fail, and the directory is what every one of them leaves behind.
-/

namespace SrcControl.ObjectsDir

open Checked (Stop)
open ByteReader (ofLe)
open Pack (Zstd IndexEntry decodeAll stopped readObjectAt parseIndex buildPack)
open CrashTrace

structure File where
  bytes : Bytes
  mtime : Nat
deriving DecidableEq

/-- `objects/<aa>/<rest>`, the older `objects/<hex>`, and `objects/pack` by stem. -/
structure Dir where
  sharded : BTreeMap ObjectId File
  flat : BTreeMap ObjectId File
  packs : BTreeMap String Bytes
  idxs : BTreeMap String Bytes

structure PackLoc where
  stem : String
  offset : Nat
deriving DecidableEq

/-- What an open store holds in memory. -/
structure Handle where
  resident : BTreeMap ObjectId Object
  packIndex : BTreeMap ObjectId PackLoc

/-- Compression, the hash, the order in which directories are read, and how file calls end. -/
structure Env where
  z : Zstd
  hash : Bytes → Bytes
  stems : Dir → List String
  stems_perm : ∀ d, (stems d).Perm d.idxs.keys
  ids : Dir → List ObjectId
  ids_perm : ∀ d, (ids d).Perm (d.sharded.keys ++ d.flat.keys)
  fates : Nat → Fate

/-! ## Reading -/

/-- The file at `existing_loose_path`. -/
def existingLoose (d : Dir) (id : ObjectId) : Option File :=
  (d.sharded[id]?).or (d.flat[id]?)

section

variable (env : Env)

/-- What `decode_all` refuses is an uncompressed file of an older store. -/
def canonicalBytes (raw : Bytes) : Bytes :=
  match (decodeAll env.z raw).1 with
  | .ok bytes => bytes
  | .error _ => raw

/-- `read_object_file`. -/
def readObjectFile (raw : Bytes) (id : ObjectId) : Except (Stop CoreError) Object :=
  stopped (Object.decodeVerified env.hash
    (.malformed s!"object {id.short} failed hash verification on read") id
    (canonicalBytes env raw))

/-- What `read_pack_object` reads of a pack: the length at the offset and as many bytes. -/
def readPacked (pack : Bytes) (offset : Nat) (id : ObjectId) : Except (Stop CoreError) Object :=
  let rest := pack.drop offset
  let len := ofLe (rest.take 4)
  if rest.length < 4 + len then .error (.error .io)
  else readObjectAt env.z env.hash (rest.take (4 + len)) 0 id

def readPackObject (d : Dir) (index : BTreeMap ObjectId PackLoc) (id : ObjectId) :
    Except (Stop CoreError) Object :=
  match index[id]? with
  | none => .error (.error (.notFound id))
  | some loc =>
    match d.packs[loc.stem]? with
    | none => .error (.error .io)
    | some pack => readPacked env pack loc.offset id

def readDisk (d : Dir) (index : BTreeMap ObjectId PackLoc) (id : ObjectId) :
    Except (Stop CoreError) Object :=
  match existingLoose d id with
  | some file => readObjectFile env file.bytes id
  | none => readPackObject env d index id

/-- `Store::get`. -/
def get (d : Dir) (h : Handle) (id : ObjectId) : Except (Stop CoreError) Object :=
  match h.resident[id]? with
  | some o => .ok o
  | none => readDisk env d h.packIndex id

/-- The first pack that lists an id is where it is read. -/
def addRow (stem : String) (index : BTreeMap ObjectId PackLoc) (row : IndexEntry) :
    BTreeMap ObjectId PackLoc :=
  index.insertIfNew row.id ⟨stem, row.offset⟩

/-- An index without its pack is ignored. -/
def addStem (d : Dir) (index : BTreeMap ObjectId PackLoc) (stem : String) :
    Except (Stop CoreError) (BTreeMap ObjectId PackLoc) :=
  match d.packs[stem]?, d.idxs[stem]? with
  | some _, some idx => do .ok ((← parseIndex idx).foldl (addRow stem) index)
  | _, _ => .ok index

/-- The index that `reload_packs` builds. -/
def loadIndex (d : Dir) : Except (Stop CoreError) (BTreeMap ObjectId PackLoc) :=
  (env.stems d).foldlM (addStem d) ∅

/-- What a store opened on the directory now returns for an id. -/
def readFresh (d : Dir) (id : ObjectId) : Except (Stop CoreError) Object := do
  readDisk env d (← loadIndex env d) id

/-- The ids that an open store can name. -/
def allIds (d : Dir) (h : Handle) : List ObjectId :=
  h.resident.keys ++ (d.sharded.keys ++ (d.flat.keys ++ h.packIndex.keys))

def addRead (d : Dir) (h : Handle) (m : BTreeMap ObjectId Object) (id : ObjectId) :
    BTreeMap ObjectId Object :=
  match get env d h id with
  | .ok o => m.insert id o
  | .error _ => m

/-- What an open store can return, as a finite map. -/
def view (d : Dir) (h : Handle) : Store := ⟨(allIds d h).foldl (addRead env d h) ∅⟩

/-! ## File operations -/

abbrev DirM := RunM (Stop Error) Dir Handle

/-- A store as it was opened. -/
def opened (d : Dir) (h : Handle) : Machine Dir Handle := ⟨d, h, [], 0⟩

def failure : Stop Error := .error (.core .io)

def Stop.core : Stop CoreError → Stop Error
  | .error e => .error (.core e)
  | .overflow => .overflow
  | .outOfRange => .outOfRange

def orStop {α : Type} (x : Except (Stop CoreError) α) : DirM α :=
  orThrow (x.mapError Stop.core)

/-- A call that reads. -/
def touch : DirM Unit := call env.fates failure id

/-- `reload_packs`; an index that cannot be read leaves none. -/
def reloadPacks : DirM Unit := do
  touch env
  modify (fun s => { s with handle := { s.handle with packIndex := ∅ } })
  let s ← MonadState.get
  let index ← orStop (loadIndex env s.disk)
  modify (fun s => { s with handle := { s.handle with packIndex := index } })

/-- The stem of a pack: the hash of its bytes. -/
def packName (pack : Bytes) : String := hexEncode (env.hash pack)

def putPack (name : String) (pack : Bytes) (d : Dir) : Dir :=
  { d with packs := d.packs.insert name pack }

def putIdx (name : String) (idx : Bytes) (d : Dir) : Dir :=
  { d with idxs := d.idxs.insert name idx }

/-- `write_pack`: the pack, then its index. A buffer holds less than 2^63 bytes. -/
def writePack (ids : List ObjectId) : DirM String := do
  let s ← MonadState.get
  let objects ← orStop (ids.mapM (fun id => (get env s.disk s.handle id).map
    (fun o => (id, o.encode))))
  let files ← orStop (stopped (buildPack env.z objects))
  if 2 ^ 63 ≤ files.1.length ∨ 2 ^ 63 ≤ files.2.length then throw .overflow
  else
    let name := packName env files.1
    call env.fates failure (putPack name files.1)
    call env.fates failure (putIdx name files.2)
    reloadPacks env
    pure name

/-- The file at `existing_loose_path` is removed. -/
def removeLoose (id : ObjectId) (d : Dir) : Dir :=
  if d.sharded.contains id then { d with sharded := d.sharded.erase id }
  else { d with flat := d.flat.erase id }

/-- `Store::delete`. -/
def delete (id : ObjectId) : DirM Unit := do
  let s ← MonadState.get
  if (existingLoose s.disk id).isSome then call env.fates failure (removeLoose id)
  modify (fun s => { s with handle := { s.handle with resident := s.handle.resident.erase id } })

def removePack (stem : String) (d : Dir) : Dir := { d with packs := d.packs.erase stem }

def removeIdx (stem : String) (d : Dir) : Dir := { d with idxs := d.idxs.erase stem }

/-- `delete_pack`: the pack, then its index; a missing file counts as removed. -/
def deletePack (stem : String) : DirM Unit := do
  call env.fates failure (removePack stem)
  call env.fates failure (removeIdx stem)
  reloadPacks env

/-- `list_loose`: an id that is both sharded and flat is listed twice. -/
def listLoose : DirM (List ObjectId) := do
  touch env
  pure (env.ids (← MonadState.get).disk)

/-- `loose_mtime`. -/
def looseMtime (id : ObjectId) : DirM (Option Nat) := do
  let s ← MonadState.get
  match existingLoose s.disk id with
  | none => pure none
  | some file => do
    touch env
    pure (some file.mtime)

end

/-- `pack_hashes`: the packs that the loaded index leads to. -/
def packHashes (h : Handle) : List String :=
  (BTreeSet.ofList (h.packIndex.values.map (·.stem))).toList

end SrcControl.ObjectsDir
