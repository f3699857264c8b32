import SrcControl.Core.Error

/-!
# The object store

What a reader of the content-addressed store sees: a finite map from ids to
objects. A lookup names the missing id, and a typed lookup the kind it wanted.
-/

namespace SrcControl

structure Store where
  objects : BTreeMap ObjectId Object

namespace Store

def get (s : Store) (id : ObjectId) : Except Error Object :=
  match s.objects[id]? with
  | some o => .ok o
  | none => .error (.core (.notFound id))

def contains (s : Store) (id : ObjectId) : Bool := s.objects.contains id

def getTree (s : Store) (id : ObjectId) : Except Error Tree := do
  match ← s.get id with
  | .tree t => .ok t
  | _ => .error (.core (.wrongKind id "tree"))

def getSnapshot (s : Store) (id : ObjectId) : Except Error Snapshot := do
  match ← s.get id with
  | .snapshot sn => .ok sn
  | _ => .error (.core (.wrongKind id "snapshot"))

/-- `blob_bytes`. -/
def blobBytes (s : Store) (id : ObjectId) : Except Error Bytes := do
  match ← s.get id with
  | .blob b => .ok b
  | _ => .error (.badRef ("expected blob for " ++ id.short))

theorem get_eq_ok_iff {s : Store} {id : ObjectId} {o : Object} :
    s.get id = .ok o ↔ s.objects[id]? = some o := by
  unfold get
  cases s.objects[id]? <;> simp

theorem getTree_eq_ok_iff {s : Store} {id : ObjectId} {t : Tree} :
    s.getTree id = .ok t ↔ s.get id = .ok (.tree t) := by
  unfold getTree
  cases s.get id with
  | error e => simp [bind, Except.bind]
  | ok o => cases o <;> simp [bind, Except.bind]

theorem blobBytes_eq_ok_iff {s : Store} {id : ObjectId} {b : Bytes} :
    s.blobBytes id = .ok b ↔ s.get id = .ok (.blob b) := by
  unfold blobBytes
  cases s.get id with
  | error e => simp [bind, Except.bind]
  | ok o => cases o <;> simp [bind, Except.bind]

theorem contains_of_get {s : Store} {id : ObjectId} {o : Object} (h : s.get id = .ok o) :
    s.contains id = true := by
  rw [get_eq_ok_iff] at h
  rw [contains, Std.ExtTreeMap.contains_eq_isSome_getElem?, h]
  rfl

end Store

/-! ## Small stores -/

def testId (n : UInt8) : ObjectId := ⟨[n]⟩

def testStore (objects : List (UInt8 × Object)) : Store :=
  ⟨objects.foldl (fun m o => m.insert (testId o.1) o.2) ∅⟩

end SrcControl
