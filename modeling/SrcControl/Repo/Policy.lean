import SrcControl.Core.Codec
import SrcControl.Core.Error
import SrcControl.Lib.Upsert

/-!
# Protection rules

A rule's recipients are last-writer-wins registers, one for each key, ordered by epoch. The
operations on a policy's rules are modelled here as far as they decide the registers:
whether a wrap could be made only decides if the operation's snapshot is written at all.
Epochs are 32-bit and wrap around, as they do without overflow checks.
-/

namespace SrcControl

open Upsert

/-- `e.epoch = epoch; e.state = state;`. -/
def RecipientEntry.set (epoch : UInt32) (state : RecipientState) (e : RecipientEntry) :
    RecipientEntry :=
  { e with epoch := epoch, state := state }

@[simp] theorem RecipientEntry.set_key (epoch : UInt32) (state : RecipientState)
    (e : RecipientEntry) : (RecipientEntry.set epoch state e).key = e.key := rfl

@[simp] theorem RecipientEntry.set_epoch (epoch : UInt32) (state : RecipientState)
    (e : RecipientEntry) : (RecipientEntry.set epoch state e).epoch = epoch := rfl

@[simp] theorem RecipientEntry.set_state (epoch : UInt32) (state : RecipientState)
    (e : RecipientEntry) : (RecipientEntry.set epoch state e).state = state := rfl

namespace ProtectPrefix

/-- The epoch a new standing change on this prefix carries. -/
def nextEpoch (p : ProtectPrefix) : UInt32 :=
  UInt32.ofNat ((p.recipients.map (·.epoch.toNat)).max?.getD 0 + 1)

/-- Set `key`'s register, inserting it if absent. -/
def setStanding (p : ProtectPrefix) (key : Bytes) (epoch : UInt32) (state : RecipientState) :
    ProtectPrefix :=
  ⟨p.pathPrefix,
    upsert RecipientEntry.key key (RecipientEntry.set epoch state) ⟨key, epoch, state⟩ p.recipients⟩

end ProtectPrefix

/-- One register absorbing another of its key: the higher epoch wins, a tie is `Revoked`. -/
def newer (e r : RecipientEntry) : RecipientEntry :=
  if r.epoch > e.epoch ∨ (r.epoch = e.epoch ∧ r.state = .revoked) then
    RecipientEntry.set r.epoch r.state e
  else e

def absorbRegister (rs : List RecipientEntry) (r : RecipientEntry) : List RecipientEntry :=
  upsert RecipientEntry.key r.key (fun e => newer e r) r rs

def absorbRule (out : List ProtectPrefix) (p : ProtectPrefix) : List ProtectPrefix :=
  upsert ProtectPrefix.pathPrefix p.pathPrefix
    (fun q => { q with recipients := p.recipients.foldl absorbRegister q.recipients }) p out

def mergePrefixes (a b : List ProtectPrefix) : List ProtectPrefix := (a ++ b).foldl absorbRule []

/-- The register updates of `protect`: an existing rule keeps its tombstones. -/
def protectRules (ps : List ProtectPrefix) (pre : String) (recipients : List Bytes) :
    Except Error (List ProtectPrefix) :=
  if recipients = [] then
    .error (.invalidArgument ("recipient set is empty; sealing to zero recipients would make the " ++
      "value permanently unreadable"))
  else
    .ok (upsert ProtectPrefix.pathPrefix pre
      (fun rule => recipients.foldl (fun r key => r.setStanding key rule.nextEpoch .granted) rule)
      ⟨pre, recipients.map (fun key => ⟨key, 1, .granted⟩)⟩ ps)

/-- The register update of `grant`. -/
def grantRules (ps : List ProtectPrefix) (pre : String) (key : Bytes) :
    Except Error (List ProtectPrefix) :=
  match lookup ProtectPrefix.pathPrefix pre ps with
  | none => .error (.notProtected pre)
  | some _ => .ok (modifyFirst (fun p => p.pathPrefix = pre)
      (fun rule => rule.setStanding key rule.nextEpoch .granted) ps)

/-- The tombstone of `revoke`: the first register whose key has the recipient id. -/
def tombstone (recipientId : Bytes → String) (rid : String) (rule : ProtectPrefix) :
    ProtectPrefix :=
  ⟨rule.pathPrefix, modifyFirst (fun e => recipientId e.key = rid)
    (RecipientEntry.set rule.nextEpoch .revoked) rule.recipients⟩

/-- The register update of `revoke`; `recipientId` is the fingerprint of a public key. -/
def revokeRules (recipientId : Bytes → String) (ps : List ProtectPrefix) (pre rid : String) :
    Except Error (List ProtectPrefix) :=
  match lookup ProtectPrefix.pathPrefix pre ps with
  | none => .error (.notProtected pre)
  | some rule =>
    if rule.grantedKeys.any (fun pk => recipientId pk ≠ rid) then
      .ok (modifyFirst (fun p => p.pathPrefix = pre) (tombstone recipientId rid) ps)
    else .error (.invalidArgument (s!"revoking the last recipient would leave {pre} readable by " ++
      "nobody; grant another recipient first"))

/-! ## Registers -/

/-- The register of a key under a prefix. -/
def standing (ps : List ProtectPrefix) (pre : String) (key : Bytes) : Option RecipientEntry :=
  (lookup ProtectPrefix.pathPrefix pre ps).bind
    (fun p => lookup RecipientEntry.key key p.recipients)

theorem standing_key {ps : List ProtectPrefix} {pre : String} {key : Bytes} {e : RecipientEntry}
    (h : standing ps pre key = some e) : e.key = key := by
  obtain ⟨p, -, hp⟩ := Option.bind_eq_some_iff.mp h
  exact (lookup_mem hp).2

/-- One rule for each prefix, one register for each key. -/
structure Distinct (ps : List ProtectPrefix) : Prop where
  prefixes : (ps.map (·.pathPrefix)).Nodup
  keys : ∀ p ∈ ps, (p.recipients.map (·.key)).Nodup

theorem distinct_nil : Distinct [] := ⟨List.nodup_nil, by simp⟩

/-- On distinct registers a key is granted exactly when its register says so. -/
theorem mem_grantedKeys_iff {p : ProtectPrefix} (hn : (p.recipients.map (·.key)).Nodup)
    {key : Bytes} : key ∈ p.grantedKeys ↔
      ∃ e, lookup RecipientEntry.key key p.recipients = some e ∧ e.state = .granted := by
  unfold ProtectPrefix.grantedKeys
  constructor
  · intro h
    obtain ⟨e, he, rfl⟩ := List.mem_map.mp h
    obtain ⟨he, hs⟩ := List.mem_filter.mp he
    exact ⟨e, lookup_of_mem hn he, by simpa using hs⟩
  · rintro ⟨e, he, hs⟩
    obtain ⟨hmem, rfl⟩ := lookup_mem he
    exact List.mem_map_of_mem (List.mem_filter.mpr ⟨hmem, by simpa using hs⟩)

/-! ## The order of registers -/

/-- The larger epoch, at one epoch the tombstone. -/
def Before (e r : RecipientEntry) : Prop :=
  e.epoch.toNat < r.epoch.toNat ∨
    (e.epoch.toNat = r.epoch.toNat ∧ (e.state = .revoked → r.state = .revoked))

theorem Before.refl (e : RecipientEntry) : Before e e := .inr ⟨rfl, id⟩

theorem Before.trans {a b c : RecipientEntry} (hab : Before a b) (hbc : Before b c) :
    Before a c := by
  rcases hab with h | ⟨h, hs⟩ <;> rcases hbc with h' | ⟨h', hs'⟩
  · exact .inl (by omega)
  · exact .inl (by omega)
  · exact .inl (by omega)
  · exact .inr ⟨by omega, fun ha => hs' (hs ha)⟩

theorem Before.epoch_le {e r : RecipientEntry} (h : Before e r) :
    e.epoch.toNat ≤ r.epoch.toNat := by
  rcases h with h | ⟨h, -⟩ <;> omega

@[simp] theorem newer_key (e r : RecipientEntry) : (newer e r).key = e.key := by
  unfold newer
  split_ifs <;> rfl

theorem newer_eq (e r : RecipientEntry) (hk : e.key = r.key) : newer e r = r ∨ newer e r = e := by
  unfold newer
  split_ifs with h
  · left
    cases e; cases r
    simp_all [RecipientEntry.set]
  · exact .inr rfl

theorem before_newer (e r : RecipientEntry) : Before e (newer e r) ∧ Before r (newer e r) := by
  unfold newer
  split_ifs with h
  · refine ⟨?_, .inr ⟨rfl, id⟩⟩
    rcases h with h | ⟨h, hs⟩
    · exact .inl (UInt32.lt_iff_toNat_lt.mp h)
    · exact .inr ⟨congrArg UInt32.toNat h.symm, fun _ => hs⟩
  · refine ⟨Before.refl e, ?_⟩
    rw [not_or, not_and] at h
    have hle : r.epoch.toNat ≤ e.epoch.toNat := by
      have := h.1
      rw [gt_iff_lt, UInt32.lt_iff_toNat_lt] at this
      omega
    rcases Nat.lt_or_eq_of_le hle with hlt | heq
    · exact .inl hlt
    · exact .inr ⟨heq, fun hr => absurd hr (h.2 (UInt32.toNat_inj.mp heq))⟩

/-- What a merge makes of the registers of the two sides. -/
def joined : Option RecipientEntry → Option RecipientEntry → Option RecipientEntry
  | some e, some r => some (newer e r)
  | none, x => x
  | x, none => x

theorem joined_none (x : Option RecipientEntry) : joined x none = x := by cases x <;> rfl

theorem none_joined (x : Option RecipientEntry) : joined none x = x := by cases x <;> rfl

/-- Registers only move up: every register of `ps` has one in `ps'` that is not before it. -/
def MovesUp (ps ps' : List ProtectPrefix) : Prop :=
  ∀ pre key e, standing ps pre key = some e → ∃ r, standing ps' pre key = some r ∧ Before e r

theorem MovesUp.refl (ps : List ProtectPrefix) : MovesUp ps ps :=
  fun _ _ e he => ⟨e, he, Before.refl e⟩

theorem MovesUp.trans {ps qs rs : List ProtectPrefix} (h : MovesUp ps qs) (h' : MovesUp qs rs) :
    MovesUp ps rs := by
  intro pre key e he
  obtain ⟨r, hr, her⟩ := h pre key e he
  obtain ⟨q, hq, hrq⟩ := h' pre key r hr
  exact ⟨q, hq, her.trans hrq⟩

/-! ## Setting a register -/

/-- No overflow: a new epoch on this rule is above every epoch in it. -/
def ProtectPrefix.Below (p : ProtectPrefix) : Prop :=
  ∀ e ∈ p.recipients, e.epoch.toNat < 2 ^ 32 - 1

instance (p : ProtectPrefix) : Decidable p.Below :=
  inferInstanceAs (Decidable (∀ e ∈ p.recipients, e.epoch.toNat < 2 ^ 32 - 1))

theorem ProtectPrefix.Below.lt_nextEpoch {p : ProtectPrefix} (h : p.Below) {e : RecipientEntry}
    (he : e ∈ p.recipients) : e.epoch.toNat < p.nextEpoch.toNat := by
  have hle : e.epoch.toNat ≤ (p.recipients.map (·.epoch.toNat)).max?.getD 0 :=
    List.le_max?_getD_of_mem (List.mem_map_of_mem he)
  have hlt : (p.recipients.map (·.epoch.toNat)).max?.getD 0 < 2 ^ 32 - 1 := by
    cases hm : (p.recipients.map (·.epoch.toNat)).max? with
    | none => simp
    | some m =>
      obtain ⟨r, hr, rfl⟩ := List.mem_map.mp (List.max?_mem hm)
      exact h r hr
  have hsize : UInt32.size = 2 ^ 32 := rfl
  rw [nextEpoch, UInt32.toNat_ofNat_of_lt' (by omega)]
  omega

@[simp] theorem ProtectPrefix.setStanding_pathPrefix (p : ProtectPrefix) (key : Bytes)
    (epoch : UInt32) (state : RecipientState) :
    (p.setStanding key epoch state).pathPrefix = p.pathPrefix := rfl

theorem lookup_setStanding (p : ProtectPrefix) (key key' : Bytes) (epoch : UInt32)
    (state : RecipientState) :
    lookup RecipientEntry.key key' (p.setStanding key epoch state).recipients =
      if key' = key then some ⟨key, epoch, state⟩
      else lookup RecipientEntry.key key' p.recipients := by
  change lookup _ _ (upsert _ _ _ _ _) = _
  have hnew : RecipientEntry.key ⟨key, epoch, state⟩ = key := rfl
  rw [lookup_upsert (RecipientEntry.set_key epoch state) hnew]
  split_ifs with h
  · cases hl : lookup RecipientEntry.key key p.recipients with
    | none => rfl
    | some a => simp [RecipientEntry.set, (lookup_mem hl).2]
  · rfl

theorem nodup_setStanding {p : ProtectPrefix} (hn : (p.recipients.map (·.key)).Nodup)
    (key : Bytes) (epoch : UInt32) (state : RecipientState) :
    ((p.setStanding key epoch state).recipients.map (·.key)).Nodup :=
  nodup_upsert (RecipientEntry.set_key epoch state) rfl hn

/-- Granting several keys at one epoch, as `protect` does on an existing rule. -/
theorem lookup_grantAll (epoch : UInt32) (keys : List Bytes) (p : ProtectPrefix) (key : Bytes) :
    lookup RecipientEntry.key key
        (keys.foldl (fun r k => r.setStanding k epoch .granted) p).recipients =
      if key ∈ keys then some ⟨key, epoch, .granted⟩
      else lookup RecipientEntry.key key p.recipients := by
  induction keys generalizing p with
  | nil => simp
  | cons k keys ih =>
    rw [List.foldl_cons, ih, lookup_setStanding]
    by_cases hk : key ∈ keys
    · simp [hk]
    · by_cases h : key = k
      · simp [h]
      · simp [hk, h]

theorem grantAll_pathPrefix (epoch : UInt32) (keys : List Bytes) (p : ProtectPrefix) :
    (keys.foldl (fun r k => r.setStanding k epoch .granted) p).pathPrefix = p.pathPrefix := by
  induction keys generalizing p with
  | nil => rfl
  | cons k keys ih => rw [List.foldl_cons, ih, ProtectPrefix.setStanding_pathPrefix]

theorem nodup_grantAll (epoch : UInt32) (keys : List Bytes) {p : ProtectPrefix}
    (hn : (p.recipients.map (·.key)).Nodup) :
    ((keys.foldl (fun r k => r.setStanding k epoch .granted) p).recipients.map (·.key)).Nodup := by
  induction keys generalizing p with
  | nil => exact hn
  | cons k keys ih => exact ih (nodup_setStanding hn k epoch .granted)

/-! ## One rule revised -/

/-- From `ps` to `ps'` registers move up, and each granted one is named or was there before. -/
structure Revises (ps ps' : List ProtectPrefix) (Named : String → Bytes → Prop) : Prop where
  distinct : Distinct ps'
  moves : MovesUp ps ps'
  granted : ∀ pre key r, standing ps' pre key = some r → r.state = .granted →
    Named pre key ∨ standing ps pre key = some r

/-- The same of one rule. -/
structure RevisesRule (p p' : ProtectPrefix) (Named : Bytes → Prop) : Prop where
  distinct : (p'.recipients.map (·.key)).Nodup
  moves : ∀ key e, lookup RecipientEntry.key key p.recipients = some e →
    ∃ r, lookup RecipientEntry.key key p'.recipients = some r ∧ Before e r
  granted : ∀ key r, lookup RecipientEntry.key key p'.recipients = some r → r.state = .granted →
    Named key ∨ lookup RecipientEntry.key key p.recipients = some r

theorem standing_cons (p : ProtectPrefix) (ps : List ProtectPrefix) (pre : String) (key : Bytes) :
    standing (p :: ps) pre key =
      if p.pathPrefix = pre then lookup RecipientEntry.key key p.recipients
      else standing ps pre key := by
  unfold standing
  rw [lookup_cons]
  split_ifs <;> rfl

theorem standing_upsert {f : ProtectPrefix → ProtectPrefix} {new : ProtectPrefix} {pre : String}
    (hf : ∀ p, (f p).pathPrefix = p.pathPrefix) (hnew : new.pathPrefix = pre)
    (ps : List ProtectPrefix) (pre' : String) (key : Bytes) :
    standing (upsert ProtectPrefix.pathPrefix pre f new ps) pre' key =
      if pre' = pre then lookup RecipientEntry.key key
        (match lookup ProtectPrefix.pathPrefix pre ps with
          | some rule => f rule
          | none => new).recipients
      else standing ps pre' key := by
  unfold standing
  rw [lookup_upsert hf hnew]
  split_ifs
  · cases lookup ProtectPrefix.pathPrefix pre ps <;> rfl
  · rfl

theorem mem_upsert {f : ProtectPrefix → ProtectPrefix} {new q : ProtectPrefix} {pre : String}
    {ps : List ProtectPrefix} (hq : q ∈ upsert ProtectPrefix.pathPrefix pre f new ps) :
    q ∈ ps ∨ (∃ rule, lookup ProtectPrefix.pathPrefix pre ps = some rule ∧ q = f rule) ∨
      (lookup ProtectPrefix.pathPrefix pre ps = none ∧ q = new) := by
  induction ps with
  | nil => exact .inr (.inr ⟨rfl, by simpa [upsert] using hq⟩)
  | cons p ps ih =>
    rw [upsert] at hq
    rw [lookup_cons]
    by_cases hp : p.pathPrefix = pre
    · rw [if_pos hp] at hq ⊢
      rcases List.mem_cons.mp hq with rfl | hq
      · exact .inr (.inl ⟨p, rfl, rfl⟩)
      · exact .inl (List.mem_cons_of_mem _ hq)
    · rw [if_neg hp] at hq ⊢
      rcases List.mem_cons.mp hq with rfl | hq
      · exact .inl List.mem_cons_self
      · exact (ih hq).imp_left (List.mem_cons_of_mem _)

/-- A policy with one rule revised, or one rule added whose keys are all named. -/
theorem revises_upsert {ps : List ProtectPrefix} {f : ProtectPrefix → ProtectPrefix}
    {new : ProtectPrefix} {pre : String} {Named : Bytes → Prop} (hd : Distinct ps)
    (hf : ∀ p, (f p).pathPrefix = p.pathPrefix) (hnew : new.pathPrefix = pre)
    (hsome : ∀ rule, lookup ProtectPrefix.pathPrefix pre ps = some rule →
      RevisesRule rule (f rule) Named)
    (hnone : lookup ProtectPrefix.pathPrefix pre ps = none →
      (new.recipients.map (·.key)).Nodup ∧ ∀ e ∈ new.recipients, Named e.key) :
    Revises ps (upsert ProtectPrefix.pathPrefix pre f new ps) (fun p k => p = pre ∧ Named k) := by
  refine ⟨⟨nodup_upsert hf hnew hd.prefixes, fun q hq => ?_⟩, fun pre' key e he => ?_,
    fun pre' key r hr hs => ?_⟩
  · rcases mem_upsert hq with hq | ⟨rule, hrule, rfl⟩ | ⟨hno, rfl⟩
    · exact hd.keys q hq
    · exact (hsome rule hrule).distinct
    · exact (hnone hno).1
  · rw [standing_upsert hf hnew]
    split_ifs with h
    · subst h
      cases hl : lookup ProtectPrefix.pathPrefix pre' ps with
      | none => simp [standing, hl] at he
      | some rule =>
        rw [standing, hl] at he
        exact (hsome rule hl).moves key e he
    · exact ⟨e, he, Before.refl e⟩
  · rw [standing_upsert hf hnew] at hr
    split_ifs at hr with h
    · subst h
      cases hl : lookup ProtectPrefix.pathPrefix pre' ps with
      | none =>
        rw [hl] at hr
        obtain ⟨hmem, rfl⟩ := lookup_mem hr
        exact .inl ⟨rfl, (hnone hl).2 r hmem⟩
      | some rule =>
        rw [hl] at hr
        refine ((hsome rule hl).granted key r hr hs).imp (fun hk => ⟨rfl, hk⟩) (fun hk => ?_)
        rw [standing, hl]
        exact hk
    · exact .inr hr

theorem Distinct.of_lookup {ps : List ProtectPrefix} (hd : Distinct ps) {pre : String}
    {rule : ProtectPrefix} (h : lookup ProtectPrefix.pathPrefix pre ps = some rule) :
    (rule.recipients.map (·.key)).Nodup :=
  hd.keys rule (lookup_mem h).1

/-- Granting keys at the next epoch moves their registers up and leaves the others alone. -/
theorem revisesRule_grantAll {p : ProtectPrefix} (hn : (p.recipients.map (·.key)).Nodup)
    (hb : p.Below) (keys : List Bytes) :
    RevisesRule p (keys.foldl (fun r k => r.setStanding k p.nextEpoch .granted) p)
      (fun k => k ∈ keys) := by
  refine ⟨nodup_grantAll _ keys hn, fun key e he => ?_, fun key r hr _ => ?_⟩
  · rw [lookup_grantAll]
    by_cases hk : key ∈ keys
    · rw [if_pos hk]
      exact ⟨_, rfl, .inl (hb.lt_nextEpoch (lookup_mem he).1)⟩
    · rw [if_neg hk]
      exact ⟨e, he, Before.refl e⟩
  · rw [lookup_grantAll] at hr
    by_cases hk : key ∈ keys
    · exact .inl hk
    · rw [if_neg hk] at hr
      exact .inr hr

theorem lookup_tombstone (recipientId : Bytes → String) (rid : String) {p : ProtectPrefix}
    (hn : (p.recipients.map (·.key)).Nodup) (key : Bytes) :
    lookup RecipientEntry.key key (tombstone recipientId rid p).recipients =
      (lookup RecipientEntry.key key p.recipients).map (fun e =>
        if (p.recipients.find? (fun e => recipientId e.key = rid)).map RecipientEntry.key = some key
        then RecipientEntry.set p.nextEpoch .revoked e else e) :=
  lookup_modifyFirst (RecipientEntry.set_key p.nextEpoch .revoked) hn

theorem revisesRule_tombstone (recipientId : Bytes → String) (rid : String) {p : ProtectPrefix}
    (hn : (p.recipients.map (·.key)).Nodup) (hb : p.Below) :
    RevisesRule p (tombstone recipientId rid p) (fun _ => False) := by
  have hmap := map_key_modifyFirst (fun e => recipientId e.key = rid)
    (RecipientEntry.set_key p.nextEpoch .revoked) p.recipients
  refine ⟨?_, fun key e he => ?_, fun key r hr hs => .inr ?_⟩
  · exact hmap ▸ hn
  · rw [lookup_tombstone recipientId rid hn, he]
    refine ⟨_, rfl, ?_⟩
    split_ifs
    · exact .inl (hb.lt_nextEpoch (lookup_mem he).1)
    · exact Before.refl e
  · rw [lookup_tombstone recipientId rid hn] at hr
    obtain ⟨e, he, rfl⟩ := Option.map_eq_some_iff.mp hr
    split_ifs at hs ⊢ with hk
    · cases hs
    · exact he

/-! ## The operations -/

/-- A protect that creates its rule must name distinct keys, one that extends a rule must have
epochs left. -/
theorem protectRules_revises {ps ps' : List ProtectPrefix} {pre : String} {recipients : List Bytes}
    (hd : Distinct ps) (hnew : lookup ProtectPrefix.pathPrefix pre ps = none → recipients.Nodup)
    (hbelow : ∀ rule, lookup ProtectPrefix.pathPrefix pre ps = some rule → rule.Below)
    (h : protectRules ps pre recipients = .ok ps') :
    Revises ps ps' (fun p k => p = pre ∧ k ∈ recipients) := by
  unfold protectRules at h
  split_ifs at h
  cases h
  refine revises_upsert hd (fun p => grantAll_pathPrefix p.nextEpoch recipients p) rfl
    (fun rule hrule => revisesRule_grantAll (hd.of_lookup hrule) (hbelow rule hrule) recipients)
    (fun hnone => ⟨?_, fun e he => ?_⟩)
  · rw [List.map_map]
    exact (List.map_id recipients).symm ▸ hnew hnone
  · obtain ⟨k, hk, rfl⟩ := List.mem_map.mp he
    exact hk

theorem grantRules_revises {ps ps' : List ProtectPrefix} {pre : String} {key : Bytes}
    (hd : Distinct ps)
    (hbelow : ∀ rule, lookup ProtectPrefix.pathPrefix pre ps = some rule → rule.Below)
    (h : grantRules ps pre key = .ok ps') :
    Revises ps ps' (fun p k => p = pre ∧ k ∈ [key]) := by
  unfold grantRules at h
  split at h
  · cases h
  next rule hrule =>
    cases h
    rw [modifyFirst_eq_upsert hrule rule]
    refine revises_upsert hd (fun p => p.setStanding_pathPrefix key p.nextEpoch .granted)
      (lookup_mem hrule).2
      (fun p hp => revisesRule_grantAll (hd.of_lookup hp) (hbelow p hp) [key])
      (fun hnone => by rw [hrule] at hnone; cases hnone)

/-- The rule a revoke tombstones, and what it leaves. -/
theorem revokeRules_cases {recipientId : Bytes → String} {ps ps' : List ProtectPrefix}
    {pre rid : String} (h : revokeRules recipientId ps pre rid = .ok ps') :
    ∃ rule, lookup ProtectPrefix.pathPrefix pre ps = some rule ∧
      ps' = upsert ProtectPrefix.pathPrefix pre (tombstone recipientId rid) rule ps := by
  unfold revokeRules at h
  split at h
  · cases h
  next rule hrule =>
    split_ifs at h
    cases h
    exact ⟨rule, hrule, modifyFirst_eq_upsert hrule rule⟩

theorem revokeRules_revises {recipientId : Bytes → String} {ps ps' : List ProtectPrefix}
    {pre rid : String} (hd : Distinct ps)
    (hbelow : ∀ rule, lookup ProtectPrefix.pathPrefix pre ps = some rule → rule.Below)
    (h : revokeRules recipientId ps pre rid = .ok ps') :
    Revises ps ps' (fun p _ => p = pre ∧ False) := by
  obtain ⟨rule, hrule, rfl⟩ := revokeRules_cases h
  exact revises_upsert hd (fun _ => rfl) (lookup_mem hrule).2
    (fun p hp => revisesRule_tombstone recipientId rid (hd.of_lookup hp) (hbelow p hp))
    (fun hnone => by rw [hrule] at hnone; cases hnone)

/-- The register a revoke hits. -/
def revoked (recipientId : Bytes → String) (ps : List ProtectPrefix) (pre rid : String) :
    Option RecipientEntry :=
  (lookup ProtectPrefix.pathPrefix pre ps).bind
    (fun rule => rule.recipients.find? (fun e => recipientId e.key = rid))

/-- It becomes a tombstone with a higher epoch. -/
theorem standing_revokeRules {recipientId : Bytes → String} {ps ps' : List ProtectPrefix}
    {pre rid : String} {e : RecipientEntry} (hd : Distinct ps)
    (hbelow : ∀ rule, lookup ProtectPrefix.pathPrefix pre ps = some rule → rule.Below)
    (h : revokeRules recipientId ps pre rid = .ok ps')
    (he : revoked recipientId ps pre rid = some e) :
    standing ps pre e.key = some e ∧
      ∃ r, standing ps' pre e.key = some r ∧ r.state = .revoked ∧
        e.epoch.toNat < r.epoch.toNat := by
  obtain ⟨rule, hrule, rfl⟩ := revokeRules_cases h
  rw [revoked, hrule, Option.bind_some] at he
  have hmem : e ∈ rule.recipients := List.mem_of_find?_eq_some he
  have hl : lookup RecipientEntry.key e.key rule.recipients = some e :=
    lookup_of_mem (hd.of_lookup hrule) hmem
  refine ⟨by rw [standing, hrule]; exact hl, RecipientEntry.set rule.nextEpoch .revoked e, ?_, rfl,
    (hbelow rule hrule).lt_nextEpoch hmem⟩
  rw [standing_upsert (f := tombstone recipientId rid) (fun _ => rfl) (lookup_mem hrule).2,
    if_pos rfl, hrule]
  change lookup _ _ (tombstone recipientId rid rule).recipients = _
  rw [lookup_tombstone recipientId rid (hd.of_lookup hrule), hl, he]
  simp

/-! ## Merging policies -/

theorem lookup_absorbRegisters {rs qs : List RecipientEntry} (hn : (rs.map (·.key)).Nodup)
    (key : Bytes) :
    lookup RecipientEntry.key key (rs.foldl absorbRegister qs) =
      joined (lookup RecipientEntry.key key qs) (lookup RecipientEntry.key key rs) := by
  induction rs generalizing qs with
  | nil => exact (joined_none _).symm
  | cons r rs ih =>
    rw [List.map_cons, List.nodup_cons] at hn
    have hstep : lookup RecipientEntry.key key (absorbRegister qs r) =
        if key = r.key then joined (lookup RecipientEntry.key key qs) (some r)
        else lookup RecipientEntry.key key qs := by
      unfold absorbRegister
      rw [lookup_upsert (fun e => newer_key e r) rfl]
      split_ifs with h
      · subst h
        cases lookup RecipientEntry.key r.key qs <;> rfl
      · rfl
    rw [List.foldl_cons, ih hn.2, hstep, lookup_cons]
    by_cases h : r.key = key
    · subst h
      have hrest : lookup RecipientEntry.key r.key rs = none := lookup_eq_none_iff.mpr hn.1
      rw [if_pos rfl, if_pos rfl, hrest, joined_none]
    · rw [if_neg h, if_neg (Ne.symm h)]

theorem nodup_absorbRegisters (rs : List RecipientEntry) {qs : List RecipientEntry}
    (hn : (qs.map (·.key)).Nodup) : ((rs.foldl absorbRegister qs).map (·.key)).Nodup := by
  induction rs generalizing qs with
  | nil => exact hn
  | cons r rs ih => exact ih (nodup_upsert (fun e => newer_key e r) rfl hn)

theorem standing_absorbRule (out : List ProtectPrefix) {p : ProtectPrefix}
    (hn : (p.recipients.map (·.key)).Nodup) (pre : String) (key : Bytes) :
    standing (absorbRule out p) pre key =
      if pre = p.pathPrefix then
        joined (standing out pre key) (lookup RecipientEntry.key key p.recipients)
      else standing out pre key := by
  have hf : ∀ q : ProtectPrefix,
      ({ q with recipients := p.recipients.foldl absorbRegister q.recipients } :
        ProtectPrefix).pathPrefix = q.pathPrefix := fun _ => rfl
  unfold absorbRule
  rw [standing_upsert hf rfl]
  split_ifs with h
  · subst h
    unfold standing
    cases hl : lookup ProtectPrefix.pathPrefix p.pathPrefix out with
    | none => exact (none_joined _).symm
    | some q => exact lookup_absorbRegisters hn key
  · rfl

theorem Distinct.absorbRule {out : List ProtectPrefix} (hd : Distinct out) {p : ProtectPrefix}
    (hn : (p.recipients.map (·.key)).Nodup) : Distinct (absorbRule out p) := by
  refine ⟨nodup_upsert (fun _ => rfl) rfl hd.prefixes, fun q hq => ?_⟩
  rcases mem_upsert hq with hq | ⟨rule, hrule, rfl⟩ | ⟨-, rfl⟩
  · exact hd.keys q hq
  · exact nodup_absorbRegisters p.recipients (hd.of_lookup hrule)
  · exact hn

theorem Distinct.tail {p : ProtectPrefix} {ps : List ProtectPrefix} (hd : Distinct (p :: ps)) :
    Distinct ps :=
  ⟨(List.nodup_cons.mp hd.prefixes).2, fun q hq => hd.keys q (List.mem_cons_of_mem p hq)⟩

theorem absorbRules {ps out : List ProtectPrefix} (hout : Distinct out) (hd : Distinct ps) :
    Distinct (ps.foldl absorbRule out) ∧ ∀ pre key, standing (ps.foldl absorbRule out) pre key =
      joined (standing out pre key) (standing ps pre key) := by
  induction ps generalizing out with
  | nil => exact ⟨hout, fun pre key => (joined_none _).symm⟩
  | cons p ps ih =>
    have hn := hd.keys p List.mem_cons_self
    have h := ih (hout.absorbRule hn) hd.tail
    refine ⟨h.1, fun pre key => ?_⟩
    rw [List.foldl_cons, h.2, standing_absorbRule out hn, standing_cons]
    by_cases hp : p.pathPrefix = pre
    · subst hp
      have hrest : standing ps p.pathPrefix key = none := by
        have hno := (List.nodup_cons.mp hd.prefixes).1
        rw [standing, lookup_eq_none_iff.mpr hno]
        rfl
      rw [if_pos rfl, if_pos rfl, hrest, joined_none]
    · rw [if_neg hp, if_neg (Ne.symm hp)]

theorem distinct_mergePrefixes {a b : List ProtectPrefix} (ha : Distinct a) (hb : Distinct b) :
    Distinct (mergePrefixes a b) := by
  unfold mergePrefixes
  rw [List.foldl_append]
  exact (absorbRules (absorbRules distinct_nil ha).1 hb).1

/-- A merged policy holds, register by register, the newer of the two sides. -/
theorem standing_mergePrefixes {a b : List ProtectPrefix} (ha : Distinct a) (hb : Distinct b)
    (pre : String) (key : Bytes) :
    standing (mergePrefixes a b) pre key = joined (standing a pre key) (standing b pre key) := by
  have h := absorbRules distinct_nil ha
  unfold mergePrefixes
  rw [List.foldl_append, (absorbRules h.1 hb).2, h.2]
  rfl

end SrcControl
