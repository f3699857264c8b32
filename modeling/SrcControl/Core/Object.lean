import SrcControl.Lib.BinarySearch
import SrcControl.Lib.OrderedMap

/-!
# Object model

The eight object kinds of the content-addressed store. An `ObjectId` is the
digest of an object's canonical encoding; its width plays no part in what is
proved here, so a digest is a byte string. A `BTreeMap` is an ordered map.
-/

namespace SrcControl

abbrev Bytes := List UInt8

structure ObjectId where
  bytes : Bytes
deriving DecidableEq, Repr, Inhabited

instance : Ord ObjectId := ⟨fun a b => compare a.bytes b.bytes⟩

instance : Std.TransOrd ObjectId where
  eq_swap {a b} := @Std.OrientedOrd.eq_swap Bytes _ _ a.bytes b.bytes
  isLE_trans {a b c} := @Std.TransOrd.isLE_trans Bytes _ _ a.bytes b.bytes c.bytes

instance : Std.LawfulEqOrd ObjectId where
  eq_of_compare {a b} h := by
    cases a; cases b
    exact congrArg ObjectId.mk (Std.LawfulEqOrd.eq_of_compare h)

inductive RecipientState
  | granted
  | revoked
deriving DecidableEq, Repr

structure RecipientEntry where
  key : Bytes
  epoch : UInt32
  state : RecipientState
deriving DecidableEq

structure ProtectPrefix where
  pathPrefix : String
  recipients : List RecipientEntry
deriving DecidableEq

/-- The effective recipient set: the keys with `Granted` standing. -/
def ProtectPrefix.grantedKeys (p : ProtectPrefix) : List Bytes :=
  (p.recipients.filter (fun e => e.state = .granted)).map (·.key)

structure WrappedKey where
  recipientId : String
  wrappedDek : Bytes
deriving DecidableEq

structure Protection where
  prefixes : List ProtectPrefix
  wrapped : BTreeMap ObjectId (List WrappedKey)
deriving DecidableEq

instance : Inhabited Protection := ⟨⟨[], ∅⟩⟩

/-- Perms bit of a blob entry that holds an encrypted file. -/
def PROTECTED : UInt8 := 0b01

/-- Perms bit of a `PROTECTED` entry sealed with a fresh random key. -/
def RANDOMIZED : UInt8 := 0b10

inductive EntryKind
  | blob
  | tree
deriving DecidableEq, Repr

structure FileMode where
  bits : UInt32
deriving DecidableEq, Repr

def FileMode.FILE : FileMode := ⟨0o644⟩
def FileMode.EXEC : FileMode := ⟨0o755⟩

structure TreeEntry where
  name : String
  kind : EntryKind
  id : ObjectId
  mode : FileMode
  perms : UInt8
deriving DecidableEq, Repr

structure Tree where
  entries : List TreeEntry
deriving DecidableEq, Repr, Inhabited

structure Snapshot where
  root : ObjectId
  parents : List ObjectId
  author : String
  timestamp : Int64
  message : String
  secrets : BTreeMap String ObjectId
  protection : Protection
deriving DecidableEq

structure Secret where
  name : String
  nonce : Bytes
  ciphertext : Bytes
  wrappedKeys : List WrappedKey
deriving DecidableEq

structure SignatureObj where
  snapshot : ObjectId
  signer : Bytes
  sig : Bytes
deriving DecidableEq

structure Transcript where
  snapshot : ObjectId
  agent : String
  session : String
  nonce : Bytes
  ciphertext : Bytes
  wrappedKeys : List WrappedKey
deriving DecidableEq

structure SealedObj where
  payload : Bytes
deriving DecidableEq

structure BranchManifest where
  base : ObjectId
  prev : Option ObjectId
  anchors : List ObjectId
  closure : List ObjectId
  indexCt : Bytes
  kekWraps : List WrappedKey
deriving DecidableEq

inductive Object
  | blob (bytes : Bytes)
  | tree (t : Tree)
  | snapshot (s : Snapshot)
  | secret (s : Secret)
  | signature (s : SignatureObj)
  | transcript (t : Transcript)
  | sealed (s : SealedObj)
  | manifest (m : BranchManifest)
deriving DecidableEq

namespace Tree

/-- `entries.sort_by(|a, b| a.name.cmp(&b.name))`. -/
def new (entries : List TreeEntry) : Tree :=
  ⟨entries.mergeSort (fun a b => (compare a.name b.name).isLE)⟩

/-- Names in strictly ascending order: what `new` yields on distinct names. -/
def Sorted (t : Tree) : Prop := t.entries.Pairwise (fun a b => compare a.name b.name = .lt)

instance (t : Tree) : Decidable t.Sorted :=
  inferInstanceAs (Decidable (t.entries.Pairwise (fun a b => compare a.name b.name = .lt)))

theorem mem_new {entries : List TreeEntry} {e : TreeEntry} :
    e ∈ (new entries).entries ↔ e ∈ entries :=
  List.mem_mergeSort

theorem new_sorted {entries : List TreeEntry} (h : (entries.map (·.name)).Nodup) :
    (new entries).Sorted := by
  have hle : (new entries).entries.Pairwise (fun a b => (compare a.name b.name).isLE = true) :=
    pairwise_mergeSort_key TreeEntry.name entries
  have hne : (new entries).entries.Pairwise (fun a b => a.name ≠ b.name) := by
    have hp : ((new entries).entries.map (·.name)).Nodup :=
      ((List.mergeSort_perm entries _).map (·.name)).nodup_iff.mpr h
    exact List.pairwise_map.mp hp
  refine (hle.and hne).imp ?_
  intro a b hab
  cases hc : compare a.name b.name with
  | lt => rfl
  | eq => exact absurd (Std.LawfulEqOrd.eq_of_compare hc) hab.2
  | gt => simp [hc] at hab

theorem sorted_new_eq {entries : List TreeEntry}
    (h : entries.Pairwise (fun a b => compare a.name b.name = .lt)) : new entries = ⟨entries⟩ := by
  unfold new
  rw [List.mergeSort_of_pairwise (h.imp (fun hab => by rw [hab]; rfl))]

theorem Sorted.nodup_names {t : Tree} (h : t.Sorted) : (t.entries.map (·.name)).Nodup := by
  refine List.pairwise_map.mpr (h.imp ?_)
  intro a b hab he
  rw [he, Std.ReflOrd.compare_self] at hab
  cases hab

/-- Sorted trees are the ones built by `Tree::new` from distinct names. -/
theorem sorted_iff_new {t : Tree} :
    t.Sorted ↔ ∃ entries, (entries.map (·.name)).Nodup ∧ t = new entries :=
  ⟨fun h => ⟨t.entries, h.nodup_names, (sorted_new_eq h).symm⟩,
    fun ⟨_, hn, ht⟩ => ht ▸ new_sorted hn⟩

/-- `self.entries.binary_search_by(|e| e.name.as_str().cmp(name))`. -/
def get (t : Tree) (name : String) : Option TreeEntry :=
  BinarySearch.search (fun e => compare e.name name) t.entries

theorem Sorted.ascending {t : Tree} (h : t.Sorted) (name : String) :
    BinarySearch.Ascending (fun e : TreeEntry => compare e.name name) t.entries := by
  refine h.imp ?_
  intro a b hab hne
  have hgt : compare b.name a.name = .gt := by
    rw [Std.OrientedOrd.eq_swap (a := b.name), hab]
    rfl
  cases hc : compare a.name name with
  | lt => exact absurd hc hne
  | eq => rwa [← Std.LawfulEqOrd.eq_of_compare hc]
  | gt => exact Std.TransCmp.gt_trans hgt hc

theorem Sorted.get_eq_some_iff {t : Tree} (h : t.Sorted) {name : String} {e : TreeEntry} :
    t.get name = some e ↔ e ∈ t.entries ∧ e.name = name := by
  rw [get, BinarySearch.search_eq_some_iff (h.ascending name)]
  simp only [Std.LawfulEqOrd.compare_eq_iff_eq]

end Tree

end SrcControl
