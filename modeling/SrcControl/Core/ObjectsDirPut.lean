import SrcControl.Core.ObjectsDirSafe

/-!
# What a `put` leaves behind

In a persistent store a `put` writes the object before it returns, unless the store already holds
it: in memory, or as a loose file. As long as what is in memory has a copy on disk, an object
whose `put` has returned reads from then on, whatever the store does next and whatever fails.
-/

namespace SrcControl.ObjectsDir

open Checked (Stop)
open CrashTrace

/-- `ensure_capacity` after so many calls: what it leaves in memory, and its error when that
makes no room for the object. -/
structure Policy where
  makeRoom : Nat → BTreeMap ObjectId Object → ObjectId → Object →
    BTreeMap ObjectId Object × Option (Stop Error)
  evicts : ∀ (n : Nat) (m : BTreeMap ObjectId Object) (id : ObjectId) (o : Object) (x : ObjectId)
    (v : Object), (makeRoom n m id o).1[x]? = some v → m[x]? = some v

section

variable (env : Env) (policy : Policy)

def putSharded (id : ObjectId) (file : File) (d : Dir) : Dir :=
  { d with sharded := d.sharded.insert id file }

/-- `write_object_file`: a sharded file that is there is not written again. -/
def writeObjectFile (now : Nat) (id : ObjectId) (bytes : Bytes) : DirM Unit := do
  let s ← MonadState.get
  if s.disk.sharded.contains id then pure ()
  else do
    touch env
    match env.z.encodeAll bytes with
    | .error _ => throw failure
    | .ok compressed => call env.fates failure (putSharded id ⟨compressed, now⟩)

def setResident (m : BTreeMap ObjectId Object) : DirM Unit :=
  modify (fun s => { s with handle := { s.handle with resident := m } })

/-- The object joins what is in memory, once there is room. -/
def hold (id : ObjectId) (o : Object) : DirM Unit := do
  let s ← MonadState.get
  setResident (policy.makeRoom s.calls s.handle.resident id o).1
  match (policy.makeRoom s.calls s.handle.resident id o).2 with
  | some e => throw e
  | none =>
    setResident ((policy.makeRoom s.calls s.handle.resident id o).1.insert id o)

/-- `Store::put`. -/
def put (now : Nat) (o : Object) : DirM ObjectId := do
  let id := o.id env.hash
  let s ← MonadState.get
  if s.handle.resident.contains id then pure id
  else if (existingLoose s.disk id).isSome then pure id
  else do
    writeObjectFile env now id o.encode
    hold policy id o
    pure id

/-- `Store::get`, with what it admits. -/
def fetch (id : ObjectId) : DirM Object := do
  let s ← MonadState.get
  match s.handle.resident[id]? with
  | some o => pure o
  | none => do
    touch env
    let o ← orStop (readDisk env s.disk s.handle.packIndex id)
    hold policy id o
    pure o

/-- What is asked of a store between two passes of `gc`. -/
inductive Request
  | put (now : Nat) (o : Object)
  | get (id : ObjectId)

def serve : Request → DirM Unit
  | .put now o => do
    let _ ← put env policy now o
    pure ()
  | .get id => do
    let _ ← fetch env policy id
    pure ()

/-- A store that goes on after a request that fails. -/
def serveAll (requests : List Request) (s : Machine Dir Handle) : Machine Dir Handle :=
  requests.foldl (fun s r => (finished (serve env policy r s)).2) s

end

/-! ## Durability -/

section

variable {env : Env} {policy : Policy} {content : ObjectId → Object} {S : ObjectId → Prop}

/-- Every disk so far reads and holds `S`; what is in memory is right, and has a copy. -/
structure Durable (env : Env) (content : ObjectId → Object) (S : ObjectId → Prop)
    (s : Machine Dir Handle) : Prop where
  always : Always (fun d => Sound env content d ∧ ∀ id, S id → HasCopy d id) s
  handle : s.handle.Sound env content s.disk
  backed : ∀ id, id ∈ s.handle.resident → HasCopy s.disk id
  indexed : ∀ id, id ∈ s.handle.packIndex → HasCopy s.disk id

theorem held_of_existingLoose {d : Dir} {id : ObjectId} {file : File}
    (hfile : existingLoose d id = some file) : HasCopy d id := by
  rcases Option.or_eq_some_iff.mp hfile with hfile | ⟨-, hfile⟩
  · exact .inl (Std.ExtTreeMap.mem_iff_isSome_getElem?.mpr (by rw [hfile]; rfl))
  · exact .inr (.inl (Std.ExtTreeMap.mem_iff_isSome_getElem?.mpr (by rw [hfile]; rfl)))

theorem held_putSharded {d : Dir} {x : ObjectId} (hheld : HasCopy d x) (id : ObjectId)
    (file : File) : HasCopy (putSharded id file d) x := by
  refine hheld.imp_left (fun hmem => ?_)
  rw [putSharded, Std.ExtTreeMap.mem_insert]
  exact .inr hmem

theorem Sound.putSharded {d : Dir} (hd : Sound env content d) {id : ObjectId} {file : File}
    (hfile : readObjectFile env file.bytes id = .ok (content id)) :
    Sound env content (putSharded id file d) where
  sharded x f hf := by
    rw [ObjectsDir.putSharded, BTreeMap.getElem?_insert] at hf
    split_ifs at hf with hx
    · cases hf
      exact hx ▸ hfile
    · exact hd.sharded x f hf
  flat := hd.flat
  packs := hd.packs

/-- A file that `write_object_file` makes reads. -/
theorem readObjectFile_written (henv : env.Lawful) {id : ObjectId} {o : Object}
    (hpackable : Packable env id o) {compressed : Bytes}
    (hcompressed : env.z.encodeAll o.encode = .ok compressed) :
    readObjectFile env compressed id = .ok o := by
  have hcanonical : canonicalBytes env compressed = o.encode := by
    rw [canonicalBytes, Pack.decodeAll_eq henv.inverts hcompressed]
  rw [readObjectFile, hcanonical, Object.decodeVerified, if_pos hpackable.hashed,
    hpackable.decodes]
  rfl

theorem Durable.counted {s : Machine Dir Handle} (hs : Durable env content S s) :
    Durable env content S s.count := ⟨hs.always, hs.handle, hs.backed, hs.indexed⟩

theorem Durable.touched {s : Machine Dir Handle} (hs : Durable env content S s) :
    Durable env content S (s.write fun d => d) :=
  ⟨hs.always.write hs.always.now, hs.handle, hs.backed, hs.indexed⟩

theorem Durable.written {s : Machine Dir Handle} (hs : Durable env content S s) {id : ObjectId}
    {file : File} (hfile : readObjectFile env file.bytes id = .ok (content id)) :
    Durable env content S (s.write (ObjectsDir.putSharded id file)) where
  always := hs.always.write ⟨hs.always.now.1.putSharded hfile,
    fun x hx => held_putSharded (hs.always.now.2 x hx) id file⟩
  handle := ⟨hs.handle.resident, fun x loc hloc pack hpack => hs.handle.index x loc hloc pack hpack⟩
  backed x hx := held_putSharded (hs.backed x hx) id file
  indexed x hx := held_putSharded (hs.indexed x hx) id file

/-- Less may be in memory. -/
theorem Durable.resident {s : Machine Dir Handle} (hs : Durable env content S s)
    {m : BTreeMap ObjectId Object}
    (hm : ∀ (x : ObjectId) (v : Object), m[x]? = some v → s.handle.resident[x]? = some v) :
    Durable env content S { s with handle := { s.handle with resident := m } } := by
  refine ⟨hs.always, ⟨fun x o ho => hs.handle.resident x o (hm x o ho), hs.handle.index⟩,
    fun x hx => ?_, hs.indexed⟩
  obtain ⟨o, ho⟩ := Option.isSome_iff_exists.mp (Std.ExtTreeMap.mem_iff_isSome_getElem?.mp hx)
  refine hs.backed x (Std.ExtTreeMap.mem_iff_isSome_getElem?.mpr ?_)
  rw [hm x o ho]
  rfl

theorem Durable.held {s : Machine Dir Handle} (hs : Durable env content S s) {id : ObjectId}
    (hheld : HasCopy s.disk id) :
    Durable env content S { s with handle :=
      { s.handle with resident := s.handle.resident.insert id (content id) } } := by
  refine ⟨hs.always, ⟨fun x o ho => ?_, hs.handle.index⟩, fun x hx => ?_, hs.indexed⟩
  · rw [BTreeMap.getElem?_insert] at ho
    split_ifs at ho with hx
    · cases ho
      rw [hx]
    · exact hs.handle.resident x o ho
  · rw [Std.ExtTreeMap.mem_insert, Std.LawfulEqOrd.compare_eq_iff_eq] at hx
    rcases hx with rfl | hx
    · exact hheld
    · exact hs.backed x hx

/-- An object that has a copy may join what is in memory. -/
theorem Durable.hold_keeps {id : ObjectId} :
    Meets (fun s => Durable env content S s ∧ HasCopy s.disk id) (hold policy id (content id))
      (fun _ s => Durable env content S s ∧ HasCopy s.disk id) (Durable env content S) := by
  unfold hold
  refine Meets.get (fun s hs => ?_)
  obtain ⟨hdurable, hheld⟩ := hs
  have hroom : ∀ (x : ObjectId) (v : Object),
      (policy.makeRoom s.calls s.handle.resident id (content id)).1[x]? = some v →
        s.handle.resident[x]? = some v :=
    fun x v hv => policy.evicts _ _ _ _ x v hv
  have hfewer := hdurable.resident hroom
  refine Meets.bind (Q := fun _ t => Durable env content S t ∧ HasCopy t.disk id ∧
    t.handle.resident = (policy.makeRoom s.calls s.handle.resident id (content id)).1)
    (Meets.modify (fun t ht => ?_)) (fun _ => ?_)
  · subst ht
    exact ⟨hfewer, hheld, rfl⟩
  cases (policy.makeRoom s.calls s.handle.resident id (content id)).2 with
  | some e => exact fun t ht => ht.1
  | none =>
    refine Meets.modify (fun t ht => ?_)
    rw [← ht.2.2]
    exact ⟨ht.1.held ht.2.1, ht.2.1⟩

/-- `write_object_file` leaves a copy, and keeps what reading calls and a file that reads keep. -/
theorem writeObjectFile_keeps (henv : env.Lawful) {P : Machine Dir Handle → Prop} (now : Nat)
    {id : ObjectId} (hpackable : Packable env id (content id)) (hcount : ∀ s, P s → P s.count)
    (htouch : ∀ s, P s → P (s.write fun d => d))
    (hwrite : ∀ s file, P s → readObjectFile env file.bytes id = .ok (content id) →
      P (s.write (ObjectsDir.putSharded id file))) :
    Meets P (writeObjectFile env now id (content id).encode)
      (fun _ s => P s ∧ HasCopy s.disk id) P := by
  unfold writeObjectFile
  refine Meets.get (fun s hs => ?_)
  refine Meets.ite (fun hthere => Meets.pure () (fun t ht => ?_)) (fun _ => ?_)
  · rw [ht]
    exact ⟨hs, .inl (Std.ExtTreeMap.contains_iff_mem.mp hthere)⟩
  · have htouched : Meets P (touch env) (fun _ => P) P :=
      Meets.call (fun t ht => htouch _ (hcount t ht)) hcount (fun t ht => htouch _ (hcount t ht))
    refine Meets.bind (htouched.weaken (fun t ht => ht ▸ hs) (fun _ _ h => h) (fun _ h => h))
      (fun _ => ?_)
    cases hcompressed : env.z.encodeAll (content id).encode with
    | error e => exact fun t ht => ht
    | ok compressed =>
      have hfile : readObjectFile env (⟨compressed, now⟩ : File).bytes id = .ok (content id) :=
        readObjectFile_written henv hpackable hcompressed
      have hheld : ∀ d, HasCopy (ObjectsDir.putSharded id ⟨compressed, now⟩ d) id := by
        intro d
        refine .inl ?_
        rw [ObjectsDir.putSharded, Std.ExtTreeMap.mem_insert]
        exact .inl Std.ReflCmp.compare_self
      exact Meets.call (fun t ht => ⟨hwrite _ _ (hcount t ht) hfile, hheld t.disk⟩) hcount
        (fun t ht => hwrite _ _ (hcount t ht) hfile)

/-- An object whose `put` returns has a copy. -/
theorem Durable.put_keeps (henv : env.Lawful) (now : Nat) {o : Object}
    (hcontent : content (o.id env.hash) = o) (hpackable : Packable env (o.id env.hash) o) :
    Meets (Durable env content S) (put env policy now o)
      (fun id s => Durable env content S s ∧ HasCopy s.disk id ∧ id = o.id env.hash)
      (Durable env content S) := by
  unfold put
  refine Meets.get (fun s hs => ?_)
  refine Meets.ite (fun hresident => Meets.pure _ (fun t ht => ?_)) (fun _ => ?_)
  · rw [ht]
    exact ⟨hs, hs.backed _ (Std.ExtTreeMap.contains_iff_mem.mp hresident), rfl⟩
  refine Meets.ite (fun hloose => Meets.pure _ (fun t ht => ?_)) (fun _ => ?_)
  · rw [ht]
    refine ⟨hs, ?_, rfl⟩
    obtain ⟨file, hfile⟩ := Option.isSome_iff_exists.mp hloose
    exact held_of_existingLoose hfile
  · have hwrite := @writeObjectFile_keeps env content henv (Durable env content S) now
      (o.id env.hash) (by rwa [hcontent]) (fun t ht => ht.counted) (fun t ht => ht.touched)
      (fun t file ht hfile => ht.written hfile)
    have hhold := @Durable.hold_keeps env policy content S (o.id env.hash)
    rw [hcontent] at hwrite hhold
    exact (hwrite.bind (fun _ => hhold.bind (fun _ => Meets.pure _
      (fun t ht => ⟨ht.1, ht.2, rfl⟩)))).weaken (fun t ht => ht ▸ hs) (fun _ _ h => h)
      (fun _ h => h)

theorem Durable.fetch_keeps (id : ObjectId) :
    Meets (Durable env content S) (fetch env policy id) (fun _ => Durable env content S)
      (Durable env content S) := by
  unfold fetch
  refine Meets.get (fun s hs => ?_)
  cases hresident : s.handle.resident[id]? with
  | some o => exact Meets.pure o (fun t ht => ht ▸ hs)
  | none =>
    have hread : ∀ o, readDisk env s.disk s.handle.packIndex id = .ok o →
        o = content id ∧ HasCopy s.disk id := by
      intro o ho
      refine ⟨get_content hs.always.now.1 hs.handle
        (by rw [ObjectsDir.get, hresident]; exact ho), ?_⟩
      unfold readDisk at ho
      split at ho
      · next file hfile => exact held_of_existingLoose hfile
      · unfold readPackObject at ho
        split at ho
        · cases ho
        · next loc hloc =>
          exact hs.indexed id (Std.ExtTreeMap.mem_iff_isSome_getElem?.mpr (by rw [hloc]; rfl))
    have hhold : ∀ o, Meets (fun t => Durable env content S t ∧ HasCopy t.disk id ∧ o = content id)
        (do hold policy id o; pure o) (fun _ => Durable env content S)
        (Durable env content S) := by
      intro o t ht
      obtain ⟨hdurable, hheld, rfl⟩ := ht
      exact ((Durable.hold_keeps (S := S)).bind
        (fun _ => Meets.pure (E := Durable env content S) (Q := fun _ => Durable env content S)
          (content id) (fun _ h => h.1))) t ⟨hdurable, hheld⟩
    have htouch : Meets (fun t => t = s) (touch env)
        (fun _ t => Durable env content S t ∧ t.disk = s.disk) (Durable env content S) := by
      refine Meets.call (fun t ht => ?_) (fun t ht => ?_) (fun t ht => ?_)
      · subst ht
        exact ⟨hs.counted.touched, rfl⟩
      · subst ht
        exact hs.counted
      · subst ht
        exact hs.counted.touched
    refine htouch.bind (fun _ => ?_)
    refine Meets.bind (Q := fun o t => Durable env content S t ∧ HasCopy t.disk id ∧ o = content id)
      ?_ hhold
    refine Meets.orThrow (fun o ho t ht => ?_) (fun t ht => ht.1)
    cases hrun : readDisk env s.disk s.handle.packIndex id with
    | error e =>
      rw [hrun] at ho
      cases ho
    | ok o' =>
      rw [hrun] at ho
      cases ho
      obtain ⟨heq, hheld⟩ := hread o hrun
      exact ⟨ht.1, ht.2 ▸ hheld, heq⟩

theorem Durable.serve_keeps (henv : env.Lawful) (r : Request)
    (hr : ∀ now o, r = .put now o →
      content (o.id env.hash) = o ∧ Packable env (o.id env.hash) o) :
    Meets (Durable env content S) (serve env policy r) (fun _ => Durable env content S)
      (Durable env content S) := by
  cases r with
  | put now o =>
    obtain ⟨hcontent, hpackable⟩ := hr now o rfl
    exact (Durable.put_keeps henv now hcontent hpackable).bind
      (fun _ => Meets.pure () (fun _ h => h.1))
  | get id => exact (Durable.fetch_keeps id).bind (fun _ => Meets.pure () (fun _ h => h))

theorem Durable.serveAll_keeps (henv : env.Lawful) (requests : List Request)
    (hrequests : ∀ now o, Request.put now o ∈ requests →
      content (o.id env.hash) = o ∧ Packable env (o.id env.hash) o)
    {s : Machine Dir Handle} (hs : Durable env content S s) :
    Durable env content S (serveAll env policy requests s) := by
  induction requests generalizing s with
  | nil => exact hs
  | cons r requests ih =>
    have hserve := @Durable.serve_keeps env policy content S henv r
      (fun now o hr => hrequests now o (hr ▸ List.mem_cons_self))
    refine ih (fun now o hr => hrequests now o (List.mem_cons_of_mem r hr)) ?_
    change Durable env content S ((finished (serve env policy r s)).2)
    cases hrun : serve env policy r s with
    | ok a t => exact hserve.ok hs hrun
    | error e t => exact hserve.error hs hrun

end

/-- There is always room. -/
def roomy : Policy where
  makeRoom _ m _ _ := (m, none)
  evicts _ _ _ _ _ _ hv := hv

def emptyDir : Dir := ⟨∅, ∅, ∅, ∅⟩

theorem emptyDir_sound (content : ObjectId → Object) : Sound firstEnv content emptyDir where
  sharded id file h := by simp [emptyDir] at h
  flat id file h := by simp [emptyDir] at h
  packs stem pack idx h := by simp [emptyDir] at h

theorem firstTree_packable : Packable firstEnv firstTreeId firstTree := by
  refine ⟨rfl, rfl, fun c hc => ?_⟩
  cases hc
  decide

end SrcControl.ObjectsDir
