import SrcControl.Core.Codec
import SrcControl.Lib.TextReader

/-!
# The field readers

Every field reader parses exactly what its writer writes: the values the encoding has room
for, and nothing else. At the top `decode` accepts the fields of one kind and, but for the
kinds that end with their last byte, anything behind them.
-/

namespace SrcControl

open ByteReader (Reads Parses)

/-! ## Fields the encoding has room for -/

/-- A length or a count a `u32` can hold. -/
abbrev U32 (n : Nat) : Prop := n < 2 ^ 32

abbrev FitsBytes (b : Bytes) : Prop := U32 b.length

abbrev FitsStr (s : String) : Prop := FitsBytes (utf8 s)

/-- An id is 32 bytes wide. -/
abbrev FitsId (i : ObjectId) : Prop := i.bytes.length = 32

abbrev FitsList {α : Type} (P : α → Prop) (xs : List α) : Prop := U32 xs.length ∧ ∀ x ∈ xs, P x

abbrev FitsEntry (e : TreeEntry) : Prop := FitsStr e.name ∧ FitsId e.id

abbrev FitsRecipient (r : RecipientEntry) : Prop := r.key.length = 32

abbrev FitsRule (p : ProtectPrefix) : Prop :=
  FitsStr p.pathPrefix ∧ FitsList FitsRecipient p.recipients

abbrev FitsWrap (k : WrappedKey) : Prop := FitsStr k.recipientId ∧ FitsBytes k.wrappedDek

abbrev FitsSecretRow (s : String × ObjectId) : Prop := FitsStr s.1 ∧ FitsId s.2

abbrev FitsWrappedRow (w : ObjectId × List WrappedKey) : Prop := FitsId w.1 ∧ FitsList FitsWrap w.2

structure FitsSnapshot (s : SnapshotFields) : Prop where
  root : FitsId s.root
  parents : FitsList FitsId s.parents
  author : FitsStr s.author
  message : FitsStr s.message
  secrets : FitsList FitsSecretRow s.secrets
  prefixes : FitsList FitsRule s.prefixes
  wrapped : FitsList FitsWrappedRow s.wrapped

structure FitsSecret (s : Secret) : Prop where
  name : FitsStr s.name
  nonce : FitsBytes s.nonce
  ciphertext : FitsBytes s.ciphertext
  wrappedKeys : FitsList FitsWrap s.wrappedKeys

structure FitsSignature (s : SignatureObj) : Prop where
  snapshot : FitsId s.snapshot
  signer : s.signer.length = 32
  sig : s.sig.length = 64

structure FitsTranscript (t : Transcript) : Prop where
  snapshot : FitsId t.snapshot
  agent : FitsStr t.agent
  session : FitsStr t.session
  nonce : FitsBytes t.nonce
  ciphertext : FitsBytes t.ciphertext
  wrappedKeys : FitsList FitsWrap t.wrappedKeys

structure FitsManifest (m : BranchManifest) : Prop where
  base : FitsId m.base
  prev : ∀ p, m.prev = some p → FitsId p
  anchors : FitsList FitsId m.anchors
  closure : FitsList FitsId m.closure
  indexCt : FitsBytes m.indexCt
  kekWraps : FitsList FitsWrap m.kekWraps

def Fields.Fits : Fields → Prop
  | .blob _ => True
  | .tree es => FitsList FitsEntry es
  | .snapshot s => FitsSnapshot s
  | .secret s => FitsSecret s
  | .signature s => FitsSignature s
  | .transcript t => FitsTranscript t
  | .sealed _ => True
  | .manifest m => FitsManifest m

/-! ## Each reader parses what its writer writes -/

namespace ObjectReader

theorem take_reads (n : Nat) : Reads (take n) (fun b => b.length = n) (fun b => b) :=
  Parses.take _ n

theorem u8_reads : Reads u8 (fun _ => True) (fun b => [b]) := by
  refine (Parses.bind (take_reads 1) (fun b _ _ => Parses.pure (b.headD 0))).congr ?_
  intro b x
  constructor
  · rintro ⟨bs, _, _, ⟨hl, rfl⟩, ⟨rfl, rfl⟩, rfl⟩
    obtain ⟨a, rfl⟩ := List.length_eq_one_iff.mp hl
    exact ⟨trivial, rfl⟩
  · rintro ⟨-, rfl⟩
    exact ⟨[b], _, [], ⟨rfl, rfl⟩, ⟨rfl, rfl⟩, rfl⟩

theorem u32_reads : Reads u32 U32 Writer.u32 := Parses.be _ 4

theorem i64_reads : Reads i64 (fun _ => True) Writer.i64 := by
  refine (Parses.bind (take_reads 8)
    (fun b _ _ => Parses.pure (UInt64.ofNat (ByteReader.ofBe b)).toInt64)).congr ?_
  intro t x
  constructor
  · rintro ⟨_, b, _, ⟨hl, rfl⟩, ⟨rfl, rfl⟩, rfl⟩
    refine ⟨trivial, ?_⟩
    have hlt : ByteReader.ofBe b < 2 ^ 64 := by
      have := ByteReader.ofBe_lt b
      rwa [hl] at this
    rw [List.append_nil, Writer.i64, UInt64.toUInt64_toInt64, UInt64.toNat_ofNat_of_lt' hlt, ← hl,
      ByteReader.beBytes_ofBe]
  · rintro ⟨-, rfl⟩
    refine ⟨ByteReader.beBytes 8 t.toUInt64.toNat, _, [], ⟨ByteReader.length_beBytes _ _, rfl⟩,
      ⟨?_, rfl⟩, by rw [List.append_nil]; rfl⟩
    rw [ByteReader.ofBe_beBytes (UInt64.toNat_lt _), UInt64.ofNat_toNat, Int64.toInt64_toUInt64]

theorem id_reads : Reads id FitsId Writer.id := by
  refine (Parses.bind (take_reads 32) (fun b _ _ => Parses.pure (⟨b⟩ : ObjectId))).congr ?_
  intro i x
  constructor
  · rintro ⟨_, b, _, ⟨hl, rfl⟩, ⟨rfl, rfl⟩, rfl⟩
    exact ⟨hl, List.append_nil b⟩
  · rintro ⟨hi, rfl⟩
    exact ⟨i.bytes, _, [], ⟨hi, rfl⟩, ⟨rfl, rfl⟩, (List.append_nil _).symm⟩

theorem bytes_reads : Reads bytes FitsBytes Writer.bytes := by
  refine (Parses.bind u32_reads (fun n _ _ => take_reads n)).congr ?_
  intro b x
  constructor
  · rintro ⟨n, _, _, ⟨hn, rfl⟩, ⟨rfl, rfl⟩, rfl⟩
    exact ⟨hn, rfl⟩
  · rintro ⟨hb, rfl⟩
    exact ⟨b.length, _, _, ⟨hb, rfl⟩, ⟨rfl, rfl⟩, rfl⟩

theorem str_reads : Reads str FitsStr Writer.str := Parses.text _ bytes_reads

theorem list_reads {α : Type} {read : ByteReader.Reader CoreError α} {P : α → Prop}
    {write : α → Bytes} (h : Reads read P write) (hne : ∀ a, P a → write a ≠ []) :
    Reads (list read) (FitsList P) (Writer.list write) :=
  Parses.counted u32_reads h hne

/-- A flag byte that stands for one of two values. -/
theorem flag_reads {α : Type} {a₀ a₁ : α} {write : α → UInt8} (msg : UInt8 → String)
    (h₀ : ∀ a, write a = 0 ↔ a = a₀) (h₁ : ∀ a, write a = 1 ↔ a = a₁)
    (hall : ∀ a, write a = 0 ∨ write a = 1) :
    Reads (u8 >>= fun b => if b = 0 then pure a₀ else if b = 1 then pure a₁
      else throw (.malformed (msg b))) (fun _ => True) (fun a => [write a]) := by
  have hdec : ∀ b : UInt8, Parses (if b = 0 then (pure a₀ : ByteReader.Reader CoreError α)
      else if b = 1 then pure a₁ else throw (.malformed (msg b)))
      (fun a x => write a = b ∧ x = []) := by
    intro b
    split_ifs with hb₀ hb₁
    · exact (Parses.pure a₀).congr (fun a x => by rw [hb₀, h₀])
    · exact (Parses.pure a₁).congr (fun a x => by rw [hb₁, h₁])
    · refine (Parses.throw _).congr (fun a x => ?_)
      rcases hall a with ha | ha <;> simp [ha, Ne.symm hb₀, Ne.symm hb₁]
  refine (Parses.bind u8_reads (fun b _ _ => hdec b)).congr ?_
  intro a x
  constructor
  · rintro ⟨b, _, _, ⟨-, rfl⟩, ⟨rfl, rfl⟩, rfl⟩
    exact ⟨trivial, rfl⟩
  · rintro ⟨-, rfl⟩
    exact ⟨write a, _, [], ⟨trivial, rfl⟩, ⟨rfl, rfl⟩, rfl⟩

theorem kind_reads : Reads kind (fun _ => True) (fun k => [Writer.kind k]) :=
  flag_reads _ (by intro k; cases k <;> simp [Writer.kind])
    (by intro k; cases k <;> simp [Writer.kind]) (by intro k; cases k <;> simp [Writer.kind])

theorem state_reads : Reads state (fun _ => True) (fun s => [Writer.state s]) :=
  flag_reads _ (by intro s; cases s <;> simp [Writer.state])
    (by intro s; cases s <;> simp [Writer.state]) (by intro s; cases s <;> simp [Writer.state])

theorem str_ne_nil (s : String) : Writer.str s ≠ [] := by
  intro h
  have := congrArg List.length h
  simp [Writer.str, Writer.bytes, Writer.u32] at this

theorem id_ne_nil {i : ObjectId} (h : FitsId i) : Writer.id i ≠ [] := by
  intro hnil
  rw [FitsId, show i.bytes = [] from hnil] at h
  cases h

theorem entry_reads : Reads entry FitsEntry Writer.entry := by
  refine (Parses.field (C := fun _ => True) TreeEntry.name str_reads fun name _ =>
    Parses.field TreeEntry.kind kind_reads fun kind _ =>
    Parses.field TreeEntry.id id_reads fun id _ =>
    Parses.field (fun e => e.mode.bits.toNat) u32_reads fun mode hmode =>
    Parses.field TreeEntry.perms u8_reads fun perms _ => Parses.record ?_).congr ?_
  · rintro ⟨name', kind', id', ⟨bits⟩, perms'⟩
    have hbits : bits.toNat = mode ↔ bits = UInt32.ofNat mode := by
      rw [← UInt32.toNat_inj, UInt32.toNat_ofNat_of_lt' hmode]
    simp [hbits, and_assoc]
  · intro e x
    have hmode := UInt32.toNat_lt e.mode.bits
    simp [FitsEntry, Writer.entry, hmode]

theorem entries_reads : Reads (list entry) (FitsList FitsEntry) (Writer.list Writer.entry) :=
  list_reads entry_reads (fun _ _ => List.append_ne_nil_of_left_ne_nil (str_ne_nil _) _)

theorem recipient_reads : Reads recipient FitsRecipient Writer.recipient := by
  refine (Parses.field (C := fun _ => True) RecipientEntry.key (take_reads 32) fun key _ =>
    Parses.field (fun r => r.epoch.toNat) u32_reads fun epoch hepoch =>
    Parses.field RecipientEntry.state state_reads fun state _ => Parses.record ?_).congr ?_
  · rintro ⟨key', epoch', state'⟩
    have hbits : epoch'.toNat = epoch ↔ epoch' = UInt32.ofNat epoch := by
      rw [← UInt32.toNat_inj, UInt32.toNat_ofNat_of_lt' hepoch]
    simp [hbits, and_assoc]
  · intro r x
    have hepoch := UInt32.toNat_lt r.epoch
    simp [FitsRecipient, Writer.recipient, hepoch]

theorem rule_reads : Reads rule FitsRule Writer.rule := by
  have hne : ∀ r, FitsRecipient r → Writer.recipient r ≠ [] := by
    intro r hr hnil
    have := congrArg List.length hnil
    simp [Writer.recipient, Writer.u32] at this
  refine (Parses.field (C := fun _ => True) ProtectPrefix.pathPrefix str_reads fun _ _ =>
    Parses.field ProtectPrefix.recipients (list_reads recipient_reads hne) fun _ _ =>
    Parses.record ?_).congr ?_
  · rintro ⟨prefix', recipients'⟩
    simp
  · intro p x
    simp [FitsRule, Writer.rule]

theorem wrappedKey_reads : Reads wrappedKey FitsWrap Writer.wrappedKey := by
  refine (Parses.field (C := fun _ => True) WrappedKey.recipientId str_reads fun _ _ =>
    Parses.field WrappedKey.wrappedDek bytes_reads fun _ _ => Parses.record ?_).congr ?_
  · rintro ⟨recipient', dek'⟩
    simp
  · intro k x
    simp [FitsWrap, Writer.wrappedKey]

theorem wraps_reads : Reads (list wrappedKey) (FitsList FitsWrap) (Writer.list Writer.wrappedKey) :=
  list_reads wrappedKey_reads (fun k _ => by
    rw [Writer.wrappedKey]
    exact List.append_ne_nil_of_left_ne_nil (str_ne_nil _) _)

theorem secretRow_reads : Reads secretRow FitsSecretRow Writer.secretRow := by
  refine (Parses.field (C := fun _ => True) Prod.fst str_reads fun _ _ =>
    Parses.field Prod.snd id_reads fun _ _ => Parses.record ?_).congr ?_
  · rintro ⟨name, id'⟩
    simp
  · intro s x
    simp [FitsSecretRow, Writer.secretRow]

theorem wrappedRow_reads : Reads wrappedRow FitsWrappedRow Writer.wrappedRow := by
  refine (Parses.field (C := fun _ => True) Prod.fst id_reads fun _ _ =>
    Parses.field Prod.snd wraps_reads fun _ _ => Parses.record ?_).congr ?_
  · rintro ⟨id', wks⟩
    simp
  · intro w x
    simp [FitsWrappedRow, Writer.wrappedRow]

theorem ids_reads : Reads (list id) (FitsList FitsId) (Writer.list Writer.id) :=
  list_reads id_reads (fun _ => id_ne_nil)

theorem snapshot_reads : Reads snapshot FitsSnapshot Writer.snapshot := by
  have hsecret : ∀ s, FitsSecretRow s → Writer.secretRow s ≠ [] := fun s _ =>
    List.append_ne_nil_of_left_ne_nil (str_ne_nil _) _
  have hrule : ∀ p, FitsRule p → Writer.rule p ≠ [] := fun p _ =>
    List.append_ne_nil_of_left_ne_nil (str_ne_nil _) _
  have hrow : ∀ w, FitsWrappedRow w → Writer.wrappedRow w ≠ [] := fun w hw =>
    List.append_ne_nil_of_left_ne_nil (id_ne_nil hw.1) _
  refine (Parses.field (C := fun _ => True) SnapshotFields.root id_reads fun _ _ =>
    Parses.field SnapshotFields.parents ids_reads fun _ _ =>
    Parses.field SnapshotFields.author str_reads fun _ _ =>
    Parses.field SnapshotFields.timestamp i64_reads fun _ _ =>
    Parses.field SnapshotFields.message str_reads fun _ _ =>
    Parses.field SnapshotFields.secrets (list_reads secretRow_reads hsecret) fun _ _ =>
    Parses.field SnapshotFields.prefixes (list_reads rule_reads hrule) fun _ _ =>
    Parses.field SnapshotFields.wrapped (list_reads wrappedRow_reads hrow) fun _ _ =>
    Parses.record ?_).congr ?_
  · rintro ⟨root', parents', author', timestamp', message', secrets', prefixes', wrapped'⟩
    simp [and_assoc]
  · intro s x
    constructor
    · rintro ⟨⟨-, hroot, hparents, hauthor, -, hmessage, hsecrets, hprefixes, hwrapped, -⟩, rfl⟩
      exact ⟨⟨hroot, hparents, hauthor, hmessage, hsecrets, hprefixes, hwrapped⟩,
        by simp [Writer.snapshot]⟩
    · rintro ⟨h, rfl⟩
      exact ⟨⟨trivial, h.root, h.parents, h.author, trivial, h.message, h.secrets, h.prefixes,
        h.wrapped, trivial⟩, by simp [Writer.snapshot]⟩

theorem secret_reads : Reads secret FitsSecret Writer.secret := by
  refine (Parses.field (C := fun _ => True) Secret.name str_reads fun _ _ =>
    Parses.field Secret.nonce bytes_reads fun _ _ =>
    Parses.field Secret.ciphertext bytes_reads fun _ _ =>
    Parses.field Secret.wrappedKeys wraps_reads fun _ _ => Parses.record ?_).congr ?_
  · rintro ⟨name', nonce', ciphertext', wrappedKeys'⟩
    simp [and_assoc]
  · intro s x
    constructor
    · rintro ⟨⟨-, hname, hnonce, hct, hwraps, -⟩, rfl⟩
      exact ⟨⟨hname, hnonce, hct, hwraps⟩, by simp [Writer.secret]⟩
    · rintro ⟨h, rfl⟩
      exact ⟨⟨trivial, h.name, h.nonce, h.ciphertext, h.wrappedKeys, trivial⟩,
        by simp [Writer.secret]⟩

theorem signature_reads : Reads signature FitsSignature Writer.signature := by
  refine (Parses.field (C := fun _ => True) SignatureObj.snapshot id_reads fun _ _ =>
    Parses.field SignatureObj.signer (take_reads 32) fun _ _ =>
    Parses.field SignatureObj.sig (take_reads 64) fun _ _ => Parses.record ?_).congr ?_
  · rintro ⟨snapshot', signer', sig'⟩
    simp [and_assoc]
  · intro s x
    constructor
    · rintro ⟨⟨-, hsnap, hsigner, hsig, -⟩, rfl⟩
      exact ⟨⟨hsnap, hsigner, hsig⟩, by simp [Writer.signature]⟩
    · rintro ⟨h, rfl⟩
      exact ⟨⟨trivial, h.snapshot, h.signer, h.sig, trivial⟩, by simp [Writer.signature]⟩

theorem transcript_reads : Reads transcript FitsTranscript Writer.transcript := by
  refine (Parses.field (C := fun _ => True) Transcript.snapshot id_reads fun _ _ =>
    Parses.field Transcript.agent str_reads fun _ _ =>
    Parses.field Transcript.session str_reads fun _ _ =>
    Parses.field Transcript.nonce bytes_reads fun _ _ =>
    Parses.field Transcript.ciphertext bytes_reads fun _ _ =>
    Parses.field Transcript.wrappedKeys wraps_reads fun _ _ => Parses.record ?_).congr ?_
  · rintro ⟨snapshot', agent', session', nonce', ciphertext', wrappedKeys'⟩
    simp [and_assoc]
  · intro t x
    constructor
    · rintro ⟨⟨-, hsnap, hagent, hsession, hnonce, hct, hwraps, -⟩, rfl⟩
      exact ⟨⟨hsnap, hagent, hsession, hnonce, hct, hwraps⟩, by simp [Writer.transcript]⟩
    · rintro ⟨h, rfl⟩
      exact ⟨⟨trivial, h.snapshot, h.agent, h.session, h.nonce, h.ciphertext, h.wrappedKeys,
        trivial⟩, by simp [Writer.transcript]⟩

theorem prev_reads : Reads prev (fun o => ∀ p, o = some p → FitsId p) Writer.prev := by
  have hdec : ∀ b : UInt8, Parses (if b = 0 then (pure none : ByteReader.Reader CoreError _)
      else if b = 1 then id >>= fun p => pure (some p)
      else throw (.malformed s!"bad manifest prev marker {b}"))
      (fun o x => (∀ p, o = some p → FitsId p) ∧ b :: x = Writer.prev o) := by
    intro b
    split_ifs with hb₀ hb₁
    · refine (Parses.pure none).congr (fun o x => ?_)
      subst hb₀
      cases o <;> simp [Writer.prev]
    · refine (Parses.bind id_reads (fun p _ _ => Parses.pure (some p))).congr (fun o x => ?_)
      subst hb₁
      constructor
      · rintro ⟨p, _, _, ⟨hp, rfl⟩, ⟨rfl, rfl⟩, rfl⟩
        exact ⟨fun q hq => by cases hq; exact hp, by simp [Writer.prev]⟩
      · rintro ⟨ho, hx⟩
        cases o with
        | none => simp [Writer.prev] at hx
        | some p =>
          rw [Writer.prev, List.cons.injEq] at hx
          exact ⟨p, _, [], ⟨ho p rfl, rfl⟩, ⟨rfl, rfl⟩, by rw [hx.2, List.append_nil]⟩
    · refine (Parses.throw _).congr (fun o x => ?_)
      cases o <;> simp [Writer.prev, hb₀, hb₁]
  refine (Parses.bind u8_reads (fun b _ _ => hdec b)).congr ?_
  intro o x
  constructor
  · rintro ⟨b, _, y, ⟨-, rfl⟩, ⟨ho, hy⟩, rfl⟩
    exact ⟨ho, hy⟩
  · rintro ⟨ho, rfl⟩
    cases o with
    | none => exact ⟨0, _, [], ⟨trivial, rfl⟩, ⟨ho, rfl⟩, rfl⟩
    | some p => exact ⟨1, _, Writer.id p, ⟨trivial, rfl⟩, ⟨ho, rfl⟩, rfl⟩

theorem manifest_reads : Reads manifest FitsManifest Writer.manifest := by
  refine (Parses.field (C := fun _ => True) BranchManifest.base id_reads fun _ _ =>
    Parses.field BranchManifest.prev prev_reads fun _ _ =>
    Parses.field BranchManifest.anchors ids_reads fun _ _ =>
    Parses.field BranchManifest.closure ids_reads fun _ _ =>
    Parses.field BranchManifest.indexCt bytes_reads fun _ _ =>
    Parses.field BranchManifest.kekWraps wraps_reads fun _ _ => Parses.record ?_).congr ?_
  · rintro ⟨base', prev', anchors', closure', indexCt', kekWraps'⟩
    simp [and_assoc]
  · intro m x
    constructor
    · rintro ⟨⟨-, hbase, hprev, hanchors, hclosure, hindex, hwraps, -⟩, rfl⟩
      exact ⟨⟨hbase, hprev, hanchors, hclosure, hindex, hwraps⟩, by simp [Writer.manifest]⟩
    · rintro ⟨h, rfl⟩
      exact ⟨⟨trivial, h.base, h.prev, h.anchors, h.closure, h.indexCt, h.kekWraps, trivial⟩,
        by simp [Writer.manifest]⟩

/-! ## The whole object -/

/-- Kinds whose bytes may not go on behind the fields. -/
def Exact : Fields → Prop
  | .blob _ => True
  | .sealed _ => True
  | .signature _ => True
  | _ => False

/-- What a reader of one kind makes of the bytes behind the tag. -/
theorem parses_body {α : Type} {read : ByteReader.Reader CoreError α} {P : α → Prop}
    {write : α → Bytes} (h : Reads read P write) (make : α → Fields) (tag : UInt8) (bytes : Bytes)
    (f : Fields) :
    (∃ c, (make <$> read : ByteReader.Reader CoreError Fields) ⟨tag :: bytes, 1⟩ = .ok (f, c)) ↔
      ∃ a tail, P a ∧ f = make a ∧ bytes = write a ++ tail := by
  constructor
  · rintro ⟨c, hc⟩
    obtain ⟨x, tail, hx, ⟨a, ⟨ha, rfl⟩, rfl⟩, -⟩ := ((h.map make) _ _ _ (by simp)).mp hc
    exact ⟨a, tail, ha, rfl, hx⟩
  · rintro ⟨a, tail, ha, rfl, rfl⟩
    exact ⟨_, ((h.map make) _ _ _ (by simp)).mpr ⟨write a, tail, rfl, ⟨a, ⟨ha, rfl⟩, rfl⟩, rfl⟩⟩

theorem rest_body (make : Bytes → Fields) (tag : UInt8) (bytes : Bytes) (f : Fields) :
    (∃ c, (make <$> rest : ByteReader.Reader CoreError Fields) ⟨tag :: bytes, 1⟩ = .ok (f, c)) ↔
      f = make bytes := by
  constructor
  · rintro ⟨c, hc⟩
    cases hc
    rfl
  · rintro rfl
    exact ⟨_, rfl⟩

theorem signature_body (tag : UInt8) (bytes : Bytes) (f : Fields) :
    (∃ c, signatureOnly ⟨tag :: bytes, 1⟩ = .ok (f, c)) ↔
      ∃ s, FitsSignature s ∧ f = .signature s ∧ bytes = Writer.signature s := by
  have hrun : ∀ {s : SignatureObj} {c : ByteReader.Cursor},
      signature ⟨tag :: bytes, 1⟩ = .ok (s, c) → signatureOnly ⟨tag :: bytes, 1⟩ =
        if c.buf.length - c.pos ≠ 0 then .error (.malformed "trailing bytes in signature object")
        else .ok (.signature s, c) := by
    intro s c hs
    change (signature >>= _) _ = _
    change (signature _ >>= fun p => _) = _
    rw [hs]
    change (if c.buf.length - c.pos ≠ 0 then throw _ else pure _ :
      ByteReader.Reader CoreError Fields) c = _
    split_ifs <;> rfl
  constructor
  · rintro ⟨c, hc⟩
    cases hs : signature ⟨tag :: bytes, 1⟩ with
    | error e =>
      change (signature _ >>= fun p => _) = _ at hc
      rw [hs] at hc
      cases hc
    | ok p =>
      obtain ⟨s, c'⟩ := p
      rw [hrun hs] at hc
      split_ifs at hc with hleft
      obtain ⟨x, tail, hx, ⟨hfit, rfl⟩, rfl⟩ := (signature_reads _ _ _ (by simp)).mp hs
      cases hc
      refine ⟨s, hfit, rfl, ?_⟩
      have hlen := congrArg List.length hx
      simp only [ByteReader.Cursor.rest, List.drop_succ_cons, List.drop_zero, List.length_append,
        List.length_cons] at hx hlen hleft
      have htail : tail = [] := List.length_eq_zero_iff.mp (by omega)
      rw [hx, htail, List.append_nil]
  · rintro ⟨s, hfit, rfl, rfl⟩
    have hs := (signature_reads ⟨tag :: Writer.signature s, 1⟩ s _ (by simp)).mpr
      ⟨Writer.signature s, [], (List.append_nil _).symm, ⟨hfit, rfl⟩, rfl⟩
    refine ⟨_, (hrun hs).trans (if_neg ?_)⟩
    simp [Nat.add_comm]

end ObjectReader

/-- `decode` accepts the fields of one kind with anything behind them, the bytes of a blob,
a sealed object and a signature apart, which end with the last field. -/
theorem Object.decode_eq_ok_iff {bytes : Bytes} {o : Object} :
    Object.decode bytes = .ok o ↔ ∃ f tail, bytes = f.bytes ++ tail ∧ f.Fits ∧ f.object = o ∧
      (ObjectReader.Exact f → tail = []) := by
  cases bytes with
  | nil =>
    constructor
    · intro h
      cases h
    · rintro ⟨f, tail, hb, -⟩
      cases f <;> simp [Fields.bytes] at hb
  | cons tag bytes =>
    have hrun : Object.decode (tag :: bytes) = .ok o ↔
        ∃ f, (∃ c, ObjectReader.body tag ⟨tag :: bytes, 1⟩ = .ok (f, c)) ∧ f.object = o := by
      change (ObjectReader.body tag ⟨tag :: bytes, 1⟩ >>= fun p => pure p.1.object) = _ ↔ _
      cases ObjectReader.body tag ⟨tag :: bytes, 1⟩ with
      | error e =>
        constructor
        · intro h
          cases h
        · rintro ⟨f, ⟨c, hc⟩, -⟩
          cases hc
      | ok p =>
        constructor
        · intro h
          cases h
          exact ⟨p.1, ⟨p.2, rfl⟩, rfl⟩
        · rintro ⟨f, ⟨c, hc⟩, rfl⟩
          cases hc
          rfl
    rw [hrun]
    constructor
    · rintro ⟨f, hf, rfl⟩
      unfold ObjectReader.body at hf
      split_ifs at hf with h₀ h₁ h₂ h₃ h₄ h₅ h₆ h₇ h₈
      · rw [ObjectReader.rest_body] at hf
        subst h₀ hf
        exact ⟨.blob bytes, [], by simp [Fields.bytes], trivial, rfl, fun _ => rfl⟩
      · obtain ⟨es, tail, hfit, rfl, rfl⟩ :=
          (ObjectReader.parses_body ObjectReader.entries_reads _ _ _ _).mp hf
        exact ⟨.tree es, tail, by simp [Fields.bytes, h₁], hfit, rfl, False.elim⟩
      · obtain ⟨c, hc⟩ := hf
        cases hc
      · obtain ⟨s, tail, hfit, rfl, rfl⟩ :=
          (ObjectReader.parses_body ObjectReader.snapshot_reads _ _ _ _).mp hf
        exact ⟨.snapshot s, tail, by simp [Fields.bytes, h₃], hfit, rfl, False.elim⟩
      · obtain ⟨s, tail, hfit, rfl, rfl⟩ :=
          (ObjectReader.parses_body ObjectReader.secret_reads _ _ _ _).mp hf
        exact ⟨.secret s, tail, by simp [Fields.bytes, h₄], hfit, rfl, False.elim⟩
      · obtain ⟨s, hfit, rfl, rfl⟩ := (ObjectReader.signature_body _ _ _).mp hf
        exact ⟨.signature s, [], by simp [Fields.bytes, h₅], hfit, rfl, fun _ => rfl⟩
      · obtain ⟨t, tail, hfit, rfl, rfl⟩ :=
          (ObjectReader.parses_body ObjectReader.transcript_reads _ _ _ _).mp hf
        exact ⟨.transcript t, tail, by simp [Fields.bytes, h₆], hfit, rfl, False.elim⟩
      · rw [ObjectReader.rest_body] at hf
        subst hf
        exact ⟨.sealed ⟨bytes⟩, [], by simp [Fields.bytes, h₇], trivial, rfl, fun _ => rfl⟩
      · obtain ⟨m, tail, hfit, rfl, rfl⟩ :=
          (ObjectReader.parses_body ObjectReader.manifest_reads _ _ _ _).mp hf
        exact ⟨.manifest m, tail, by simp [Fields.bytes, h₈], hfit, rfl, False.elim⟩
      · obtain ⟨c, hc⟩ := hf
        cases hc
    · rintro ⟨f, tail, hb, hfit, rfl, hexact⟩
      refine ⟨f, ?_, rfl⟩
      cases f with
      | blob b =>
        obtain ⟨rfl, hbytes⟩ : tag = TAG_BLOB ∧ bytes = b ++ tail := List.cons.inj hb
        rw [hexact trivial, List.append_nil] at hbytes
        subst hbytes
        exact (ObjectReader.rest_body Fields.blob _ _ _).mpr rfl
      | tree es =>
        obtain ⟨rfl, rfl⟩ := List.cons.inj hb
        exact (ObjectReader.parses_body ObjectReader.entries_reads Fields.tree _ _ _).mpr
          ⟨es, tail, hfit, rfl, rfl⟩
      | snapshot s =>
        obtain ⟨rfl, rfl⟩ := List.cons.inj hb
        exact (ObjectReader.parses_body ObjectReader.snapshot_reads Fields.snapshot _ _ _).mpr
          ⟨s, tail, hfit, rfl, rfl⟩
      | secret s =>
        obtain ⟨rfl, rfl⟩ := List.cons.inj hb
        exact (ObjectReader.parses_body ObjectReader.secret_reads Fields.secret _ _ _).mpr
          ⟨s, tail, hfit, rfl, rfl⟩
      | signature s =>
        obtain ⟨rfl, hbytes⟩ : tag = TAG_SIGNATURE ∧ bytes = Writer.signature s ++ tail :=
          List.cons.inj hb
        rw [hexact trivial, List.append_nil] at hbytes
        subst hbytes
        exact (ObjectReader.signature_body _ _ _).mpr ⟨s, hfit, rfl, rfl⟩
      | transcript t =>
        obtain ⟨rfl, rfl⟩ := List.cons.inj hb
        exact (ObjectReader.parses_body ObjectReader.transcript_reads Fields.transcript _ _ _).mpr
          ⟨t, tail, hfit, rfl, rfl⟩
      | sealed s =>
        obtain ⟨rfl, hbytes⟩ : tag = TAG_SEALED ∧ bytes = s.payload ++ tail := List.cons.inj hb
        rw [hexact trivial, List.append_nil] at hbytes
        subst hbytes
        exact (ObjectReader.rest_body (fun b => Fields.sealed ⟨b⟩) _ _ _).mpr rfl
      | manifest m =>
        obtain ⟨rfl, rfl⟩ := List.cons.inj hb
        exact (ObjectReader.parses_body ObjectReader.manifest_reads Fields.manifest _ _ _).mpr
          ⟨m, tail, hfit, rfl, rfl⟩

end SrcControl
