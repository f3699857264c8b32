import Mathlib.Logic.Relation
import SrcControl.Repo.Policy

/-!
# Durable revocation

A history grows by snapshots whose policy comes from a commit, a `protect`, a `grant`, a
`revoke`, a merge or a replay. Along parent edges registers only move up, and a granted
register is one that some `protect` or `grant` wrote, so a tombstone above those stays.
-/

namespace SrcControl

open Upsert Relation

/-- How a snapshot's policy came about, with the snapshots it was read from. -/
inductive PolicyOp
  | commit (parent : Option Nat)
  | protect (parent : Option Nat) (pre : String) (recipients : List Bytes)
  | grant (parent : Nat) (pre : String) (key : Bytes)
  | revoke (parent : Nat) (pre : String) (rid : String)
  | merge (ours theirs : Nat)
  | replay (onto theirs : Nat)

namespace PolicyOp

def parents : PolicyOp → List Nat
  | .commit parent => parent.toList
  | .protect parent _ _ => parent.toList
  | .grant parent _ _ => [parent]
  | .revoke parent _ _ => [parent]
  | .merge ours theirs => [ours, theirs]
  | .replay onto _ => [onto]

/-- A replay also reads the replayed commit, which is no parent. -/
def reads : PolicyOp → List Nat
  | .replay onto theirs => [onto, theirs]
  | op => op.parents

/-- The operation grants `key` on `pre` by name. -/
def Names (op : PolicyOp) (pre : String) (key : Bytes) : Prop :=
  match op with
  | .protect _ p ks => pre = p ∧ key ∈ ks
  | .grant _ p k => pre = p ∧ key ∈ [k]
  | _ => False

theorem parents_subset_reads (op : PolicyOp) : op.parents ⊆ op.reads := by
  cases op <;> simp [parents, reads]

end PolicyOp

structure PolicyNode where
  op : PolicyOp
  prefixes : List ProtectPrefix

/-- Snapshots in the order they were written. -/
abbrev History := List PolicyNode

namespace History

/-- The rules a snapshot carries; none below the first one. -/
def rules (H : History) : Option Nat → List ProtectPrefix
  | none => []
  | some i => (H[i]?.map (·.prefixes)).getD []

/-- The rules an operation arrives at. -/
def policy (recipientId : Bytes → String) (H : History) :
    PolicyOp → Except Error (List ProtectPrefix)
  | .commit parent => .ok (H.rules parent)
  | .protect parent pre recipients => protectRules (H.rules parent) pre recipients
  | .grant parent pre key => grantRules (H.rules (some parent)) pre key
  | .revoke parent pre rid => revokeRules recipientId (H.rules (some parent)) pre rid
  | .merge ours theirs => .ok (mergePrefixes (H.rules (some ours)) (H.rules (some theirs)))
  | .replay onto theirs => .ok (mergePrefixes (H.rules (some onto)) (H.rules (some theirs)))

/-- One more snapshot, its rules in the order the encoding stores them. -/
inductive Step (recipientId : Bytes → String) (H : History) (op : PolicyOp) : History → Prop
  | write {ps : List ProtectPrefix} (hreads : ∀ i ∈ op.reads, i < H.length)
      (h : H.policy recipientId op = .ok ps) :
      Step recipientId H op (H ++ [⟨op, sortRules ps⟩])

/-- A `protect` that creates its rule names distinct keys, and a standing change on a rule
finds its epochs below the top of the range. -/
def Sound (H : History) : PolicyOp → Prop
  | .protect parent pre recipients =>
    match lookup ProtectPrefix.pathPrefix pre (H.rules parent) with
    | none => recipients.Nodup
    | some rule => rule.Below
  | .grant parent pre _ | .revoke parent pre _ =>
    ∀ rule, lookup ProtectPrefix.pathPrefix pre (H.rules (some parent)) = some rule → rule.Below
  | _ => True

def Run (recipientId : Bytes → String) : History → Prop :=
  ReflTransGen (fun H H' => ∃ op, H.Sound op ∧ H.Step recipientId op H') []

def Parent (H : History) (i j : Nat) : Prop := ∃ n, H[j]? = some n ∧ i ∈ n.op.parents

/-- Snapshot `i` grants `key` on `pre` by name. -/
def NamesAt (H : History) (i : Nat) (pre : String) (key : Bytes) : Prop :=
  ∃ n, H[i]? = some n ∧ n.op.Names pre key

/-- Snapshot `s` revokes `key` on `pre`: it hits the key's register. -/
def Revokes (recipientId : Bytes → String) (H : History) (s : Nat) (pre : String) (key : Bytes) :
    Prop :=
  ∃ parent rid ps e, H[s]? = some ⟨.revoke parent pre rid, ps⟩ ∧
    revoked recipientId (H.rules (some parent)) pre rid = some e ∧ e.key = key

/-! ## Growing a history -/

section Grow

variable {H : History} {n : PolicyNode}

theorem rules_append_of_lt {i : Nat} (hi : i < H.length) :
    (H ++ [n]).rules (some i) = H.rules (some i) := by
  simp only [rules, List.getElem?_append_left hi]

theorem rules_append_length : (H ++ [n]).rules (some H.length) = n.prefixes := by
  simp [rules]

theorem getElem?_append_cases {m : PolicyNode} {i : Nat} (h : (H ++ [n])[i]? = some m) :
    (i < H.length ∧ H[i]? = some m) ∨ (i = H.length ∧ m = n) := by
  rcases Nat.lt_or_ge i H.length with hi | hi
  · rw [List.getElem?_append_left hi] at h
    exact .inl ⟨hi, h⟩
  · rw [List.getElem?_append_right hi, List.getElem?_singleton] at h
    split_ifs at h with h0
    cases h
    exact .inr ⟨by omega, rfl⟩

theorem rules_append_cases (i : Option Nat) :
    (H ++ [n]).rules i = H.rules i ∨ (i = some H.length ∧ (H ++ [n]).rules i = n.prefixes) := by
  cases i with
  | none => exact .inl rfl
  | some i =>
    rcases Nat.lt_trichotomy i H.length with hi | rfl | hi
    · exact .inl (rules_append_of_lt hi)
    · exact .inr ⟨rfl, rules_append_length⟩
    · left
      have hlen : (H ++ [n]).length ≤ i := by
        rw [List.length_append, List.length_singleton]
        exact hi
      simp only [rules, List.getElem?_eq_none hlen, List.getElem?_eq_none (Nat.le_of_lt hi)]

theorem parent_append_cases {i j : Nat} (h : (H ++ [n]).Parent i j) :
    (j < H.length ∧ H.Parent i j) ∨ (j = H.length ∧ i ∈ n.op.parents) := by
  obtain ⟨m, hm, hi⟩ := h
  rcases getElem?_append_cases hm with ⟨hj, hm⟩ | ⟨hj, rfl⟩
  · exact .inl ⟨hj, m, hm, hi⟩
  · exact .inr ⟨hj, hi⟩

theorem NamesAt.append {i : Nat} {pre : String} {key : Bytes} (h : H.NamesAt i pre key) :
    i < H.length ∧ (H ++ [n]).NamesAt i pre key := by
  obtain ⟨m, hm, hnames⟩ := h
  have hi : i < H.length := (List.getElem?_eq_some_iff.mp hm).1
  exact ⟨hi, m, (List.getElem?_append_left hi).trans hm, hnames⟩

end Grow

/-! ## What one snapshot writes -/

theorem Distinct.sortRules {ps : List ProtectPrefix} (hd : Distinct ps) :
    Distinct (sortRules ps) := by
  have hperm := List.mergeSort_perm ps (fun a b => (compare a.pathPrefix b.pathPrefix).isLE)
  refine ⟨?_, fun q hq => ?_⟩
  · unfold SrcControl.sortRules
    rw [List.map_map]
    exact ((hperm.map (·.pathPrefix)).nodup_iff).mpr hd.prefixes
  · obtain ⟨p, hp, rfl⟩ := List.mem_map.mp hq
    exact (((List.mergeSort_perm p.recipients _).map (·.key)).nodup_iff).mpr
      (hd.keys p (hperm.mem_iff.mp hp))

/-- Storing a policy reorders its rules and registers only. -/
theorem standing_sortRules {ps : List ProtectPrefix} (hd : Distinct ps) (pre : String)
    (key : Bytes) : standing (sortRules ps) pre key = standing ps pre key := by
  have hperm := List.mergeSort_perm ps (fun a b => (compare a.pathPrefix b.pathPrefix).isLE)
  have hlookup : lookup ProtectPrefix.pathPrefix pre (sortRules ps) =
      (lookup ProtectPrefix.pathPrefix pre ps).map
        (fun p => { p with recipients := sortRecipients p.recipients }) := by
    unfold sortRules
    have hf : ∀ p : ProtectPrefix, ({ p with recipients := sortRecipients p.recipients } :
        ProtectPrefix).pathPrefix = p.pathPrefix := fun _ => rfl
    rw [lookup_map hf, lookup_perm hd.prefixes hperm.symm]
  unfold standing
  rw [hlookup]
  cases hl : lookup ProtectPrefix.pathPrefix pre ps with
  | none => rfl
  | some p =>
    exact lookup_perm (hd.of_lookup hl) (List.mergeSort_perm p.recipients _).symm

/-- What a written policy owes to those it was read from. -/
structure Writes (H : History) (op : PolicyOp) (ps : List ProtectPrefix) : Prop where
  distinct : Distinct ps
  moves : ∀ i ∈ op.parents, MovesUp (H.rules (some i)) ps
  granted : ∀ pre key r, standing ps pre key = some r → r.state = .granted →
    op.Names pre key ∨ ∃ i ∈ op.reads, standing (H.rules (some i)) pre key = some r

theorem Writes.sortRules {H : History} {op : PolicyOp} {ps : List ProtectPrefix}
    (h : Writes H op ps) : Writes H op (sortRules ps) where
  distinct := Distinct.sortRules h.distinct
  moves i hi pre key e he := by
    obtain ⟨r, hr, her⟩ := h.moves i hi pre key e he
    exact ⟨r, (standing_sortRules h.distinct pre key).trans hr, her⟩
  granted pre key r hr := h.granted pre key r ((standing_sortRules h.distinct pre key) ▸ hr)

/-- An operation that revises the rules of its one parent. -/
theorem writes_of_revises {H : History} {op : PolicyOp} {parent : Option Nat}
    {ps : List ProtectPrefix} {Named : String → Bytes → Prop} (hp : op.parents = parent.toList)
    (hnames : ∀ pre key, Named pre key → op.Names pre key)
    (h : Revises (H.rules parent) ps Named) : Writes H op ps := by
  refine ⟨h.distinct, fun i hi => ?_, fun pre key r hr hs => ?_⟩
  · rw [hp, Option.mem_toList] at hi
    exact hi ▸ h.moves
  · refine (h.granted pre key r hr hs).imp (hnames pre key) (fun hold => ?_)
    cases parent with
    | none => simp [rules, standing, lookup] at hold
    | some i => exact ⟨i, op.parents_subset_reads (by simp [hp]), hold⟩

theorem MovesUp.merge_left {a b : List ProtectPrefix} (ha : Distinct a) (hb : Distinct b) :
    MovesUp a (mergePrefixes a b) := by
  intro pre key e he
  rw [standing_mergePrefixes ha hb, he]
  cases standing b pre key with
  | none => exact ⟨e, rfl, Before.refl e⟩
  | some r => exact ⟨newer e r, rfl, (before_newer e r).1⟩

theorem MovesUp.merge_right {a b : List ProtectPrefix} (ha : Distinct a) (hb : Distinct b) :
    MovesUp b (mergePrefixes a b) := by
  intro pre key r hr
  rw [standing_mergePrefixes ha hb, hr]
  cases standing a pre key with
  | none => exact ⟨r, rfl, Before.refl r⟩
  | some e => exact ⟨newer e r, rfl, (before_newer e r).2⟩

/-- A merge invents no register. -/
theorem standing_merge_cases {a b : List ProtectPrefix} (ha : Distinct a) (hb : Distinct b)
    {pre : String} {key : Bytes} {r : RecipientEntry}
    (h : standing (mergePrefixes a b) pre key = some r) :
    standing a pre key = some r ∨ standing b pre key = some r := by
  rw [standing_mergePrefixes ha hb] at h
  cases hea : standing a pre key with
  | none => exact .inr (by rwa [hea, none_joined] at h)
  | some e =>
    cases heb : standing b pre key with
    | none => exact .inl (by rwa [hea, heb, joined_none] at h)
    | some q =>
      rw [hea, heb] at h
      cases h
      rcases newer_eq e q ((standing_key hea).trans (standing_key heb).symm) with hq | he
      · exact .inr (by rw [hq])
      · exact .inl (by rw [he])

theorem writes_merge {H : History} {op : PolicyOp} {a b : Nat} (hd : ∀ i, Distinct (H.rules i))
    (hp : op.parents ⊆ [a, b]) (hr : op.reads = [a, b]) :
    Writes H op (mergePrefixes (H.rules (some a)) (H.rules (some b))) := by
  refine ⟨distinct_mergePrefixes (hd a) (hd b), fun i hi => ?_, fun pre key r h _ => .inr ?_⟩
  · rcases List.mem_pair.mp (hp hi) with rfl | rfl
    · exact MovesUp.merge_left (hd i) (hd b)
    · exact MovesUp.merge_right (hd a) (hd i)
  · rw [hr]
    rcases standing_merge_cases (hd a) (hd b) h with h | h
    · exact ⟨a, by simp, h⟩
    · exact ⟨b, by simp, h⟩

/-- Every operation under the condition writes a policy that moves its parents' up. -/
theorem policy_writes {recipientId : Bytes → String} {H : History} {op : PolicyOp}
    {ps : List ProtectPrefix} (hd : ∀ i, Distinct (H.rules i)) (hs : H.Sound op)
    (h : H.policy recipientId op = .ok ps) : Writes H op ps := by
  cases op with
  | commit parent =>
    cases h
    have hsame : Revises (H.rules parent) (H.rules parent) (fun _ _ => False) :=
      ⟨hd parent, MovesUp.refl _, fun _ _ _ h _ => .inr h⟩
    exact writes_of_revises rfl (fun _ _ hf => hf.elim) hsame
  | protect parent pre recipients =>
    have hnew : lookup ProtectPrefix.pathPrefix pre (H.rules parent) = none →
        recipients.Nodup := by
      intro hl
      simpa [Sound, hl] using hs
    have hbelow : ∀ rule, lookup ProtectPrefix.pathPrefix pre (H.rules parent) = some rule →
        rule.Below := by
      intro rule hl
      simpa [Sound, hl] using hs
    exact writes_of_revises rfl (fun _ _ h => h) (protectRules_revises (hd parent) hnew hbelow h)
  | grant parent pre key =>
    exact writes_of_revises rfl (fun _ _ h => h) (grantRules_revises (hd _) hs h)
  | revoke parent pre rid =>
    exact writes_of_revises rfl (fun _ _ h => h.2.elim) (revokeRules_revises (hd _) hs h)
  | merge ours theirs =>
    cases h
    exact writes_merge hd (List.Subset.refl _) rfl
  | replay onto theirs =>
    cases h
    exact writes_merge hd (List.cons_subset_cons onto (List.nil_subset _)) rfl

/-! ## Runs -/

/-- What a history under the condition keeps. -/
structure Durable (recipientId : Bytes → String) (H : History) : Prop where
  distinct : ∀ i, Distinct (H.rules i)
  parents_lt : ∀ i j, H.Parent i j → i < H.length
  moves : ∀ i j, H.Parent i j → MovesUp (H.rules (some i)) (H.rules (some j))
  origin : ∀ i pre key r, standing (H.rules i) pre key = some r → r.state = .granted →
    ∃ n, H.NamesAt n pre key ∧ standing (H.rules (some n)) pre key = some r
  tombstones : ∀ s parent pre rid ps e, H[s]? = some ⟨.revoke parent pre rid, ps⟩ →
    revoked recipientId (H.rules (some parent)) pre rid = some e →
    standing (H.rules (some parent)) pre e.key = some e ∧
      ∃ r, standing (H.rules (some s)) pre e.key = some r ∧ r.state = .revoked ∧
        e.epoch.toNat < r.epoch.toNat

theorem durable_nil (recipientId : Bytes → String) : Durable recipientId [] where
  distinct i := by cases i <;> exact distinct_nil
  parents_lt i j h := by simp [Parent] at h
  moves i j h := by simp [Parent] at h
  origin i pre key r h := by cases i <;> simp [rules, standing, lookup] at h
  tombstones s parent pre rid ps e h := by simp at h

theorem Durable.step {recipientId : Bytes → String} {H H' : History} {op : PolicyOp}
    (hD : Durable recipientId H) (hs : H.Sound op) (h : H.Step recipientId op H') :
    Durable recipientId H' := by
  cases h with
  | write hreads hps =>
  rename_i ps
  have hw : Writes H op ps := policy_writes hD.distinct hs hps
  have hlt : ∀ i ∈ op.parents, i < H.length := fun i hi => hreads i (op.parents_subset_reads hi)
  refine ⟨fun i => ?_, fun i j h => ?_, fun i j h => ?_, fun i pre key r h hg => ?_,
    fun s parent pre rid qs e h he => ?_⟩
  · rcases rules_append_cases i with hr | ⟨-, hr⟩ <;> rw [hr]
    · exact hD.distinct i
    · exact Distinct.sortRules hw.distinct
  · rw [List.length_append, List.length_singleton]
    rcases parent_append_cases h with ⟨-, h⟩ | ⟨-, h⟩
    · exact Nat.lt_succ_of_lt (hD.parents_lt i j h)
    · exact Nat.lt_succ_of_lt (hlt i h)
  · rcases parent_append_cases h with ⟨hj, h⟩ | ⟨rfl, hi⟩
    · rw [rules_append_of_lt (hD.parents_lt i j h), rules_append_of_lt hj]
      exact hD.moves i j h
    · rw [rules_append_of_lt (hlt i hi), rules_append_length]
      exact hw.sortRules.moves i hi
  · -- a granted register is an old one, or its key is named by the new snapshot
    have hold : ∀ i, standing (H.rules i) pre key = some r →
        ∃ n, NamesAt (H ++ [⟨op, sortRules ps⟩]) n pre key ∧
          standing (rules (H ++ [⟨op, sortRules ps⟩]) (some n)) pre key = some r := by
      intro i hi
      obtain ⟨n, hn, hr⟩ := hD.origin i pre key r hi hg
      obtain ⟨hlt', hn'⟩ := NamesAt.append (n := ⟨op, sortRules ps⟩) hn
      refine ⟨n, hn', ?_⟩
      rw [rules_append_of_lt hlt']
      exact hr
    rcases rules_append_cases i with hr | ⟨-, hr⟩
    · exact hold i (hr ▸ h)
    · rw [hr] at h
      rcases hw.sortRules.granted pre key r h hg with hnames | ⟨i, -, hi⟩
      · exact ⟨H.length, ⟨⟨op, sortRules ps⟩, by simp, hnames⟩, by rw [rules_append_length]; exact h⟩
      · exact hold (some i) hi
  · rcases getElem?_append_cases h with ⟨hs', h⟩ | ⟨rfl, hn⟩
    · have hp : parent < H.length := hD.parents_lt parent s ⟨_, h, by simp [PolicyOp.parents]⟩
      rw [rules_append_of_lt hp] at he ⊢
      rw [rules_append_of_lt hs']
      exact hD.tombstones s parent pre rid qs e h he
    · cases hn
      have hp : parent < H.length := hlt parent (by simp [PolicyOp.parents])
      rw [rules_append_of_lt hp] at he ⊢
      rw [rules_append_length]
      obtain ⟨hold, r, hr, hrs, hlt'⟩ := standing_revokeRules (hD.distinct _) hs hps he
      exact ⟨hold, r, (standing_sortRules hw.distinct pre e.key).trans hr, hrs, hlt'⟩

theorem Run.durable {recipientId : Bytes → String} {H : History} (h : Run recipientId H) :
    Durable recipientId H := by
  induction h with
  | refl => exact durable_nil recipientId
  | tail _ hstep ih =>
    obtain ⟨op, hs, hstep⟩ := hstep
    exact ih.step hs hstep

/-- Registers move up along every line of descent. -/
theorem Durable.movesUp_of_ancestor {recipientId : Bytes → String} {H : History}
    (hD : Durable recipientId H) {i j : Nat} (h : ReflTransGen H.Parent i j) :
    MovesUp (H.rules (some i)) (H.rules (some j)) := by
  induction h with
  | refl => exact MovesUp.refl _
  | tail _ hp ih => exact ih.trans (hD.moves _ _ hp)

/-- The tombstone of `s` is above every granted register that was written before `s`. -/
theorem Durable.revoked_of_descendant {recipientId : Bytes → String} {H : History}
    (hD : Durable recipientId H) {s : Nat} {pre : String} {key : Bytes}
    (hrev : H.Revokes recipientId s pre key)
    (hnames : ∀ n, H.NamesAt n pre key → TransGen H.Parent n s) {t : Nat}
    (ht : ReflTransGen H.Parent s t) :
    ∃ e, standing (H.rules (some t)) pre key = some e ∧ e.state = .revoked := by
  obtain ⟨parent, rid, ps, e, hs, he, rfl⟩ := hrev
  obtain ⟨hold, r, hr, -, hlt⟩ := hD.tombstones s parent pre rid ps e hs he
  obtain ⟨q, hq, hrq⟩ := hD.movesUp_of_ancestor ht pre e.key r hr
  refine ⟨q, hq, ?_⟩
  cases hstate : q.state with
  | revoked => rfl
  | granted =>
    -- the register was written where its key is named, hence at an ancestor of the parent
    obtain ⟨n, hn, hnq⟩ := hD.origin _ pre e.key q hq hstate
    obtain ⟨i, hni, hi⟩ := TransGen.tail'_iff.mp (hnames n hn)
    have hpar : i = parent := by
      obtain ⟨m, hm, hmi⟩ := hi
      rw [hs] at hm
      cases hm
      simpa [PolicyOp.parents] using hmi
    obtain ⟨x, hx, hqx⟩ := hD.movesUp_of_ancestor (hpar ▸ hni) pre e.key q hnq
    rw [hold] at hx
    cases hx
    have h₁ := hqx.epoch_le
    have h₂ := hrq.epoch_le
    omega

/-- Revocation is durable in every history under the condition. -/
theorem run_revocation_durable {recipientId : Bytes → String} {H : History}
    (h : Run recipientId H) :
    (∀ i j, H.Parent i j → ∀ pre key e, standing (H.rules (some i)) pre key = some e →
      ∃ r, standing (H.rules (some j)) pre key = some r ∧ e.epoch.toNat ≤ r.epoch.toNat) ∧
    ∀ s pre key, H.Revokes recipientId s pre key →
      (∀ n, H.NamesAt n pre key → TransGen H.Parent n s) →
      ∀ t, ReflTransGen H.Parent s t →
        (∃ e, standing (H.rules (some t)) pre key = some e ∧ e.state = .revoked) ∧
        ∀ p ∈ H.rules (some t), p.pathPrefix = pre → key ∉ p.grantedKeys := by
  have hD := h.durable
  refine ⟨fun i j hp pre key e he => ?_, fun s pre key hrev hnames t ht => ?_⟩
  · obtain ⟨r, hr, her⟩ := hD.moves i j hp pre key e he
    exact ⟨r, hr, her.epoch_le⟩
  · obtain ⟨e, he, hs⟩ := hD.revoked_of_descendant hrev hnames ht
    refine ⟨⟨e, he, hs⟩, ?_⟩
    rintro p hp rfl hk
    obtain ⟨r, hr, hrs⟩ := (mem_grantedKeys_iff ((hD.distinct _).keys p hp)).mp hk
    have hl : standing (H.rules (some t)) p.pathPrefix key = some r := by
      rw [standing, lookup_of_mem (hD.distinct _).prefixes hp]
      exact hr
    rw [he] at hl
    cases hl
    rw [hs] at hrs
    cases hrs

/-! ## Two registers for one key -/

def alice : Bytes := List.replicate 32 1
def bob : Bytes := List.replicate 32 2

/-- A fingerprint: half of the key, in hex. -/
def testRecipientId (key : Bytes) : String := hexEncode (key.take 16)

/-- `sc protect s/ --to keys`, then `sc revoke s/` of the first recipient. -/
def aliceRevoked (keys : List Bytes) : History :=
  let granted : List ProtectPrefix := [⟨"s/", keys.map (fun key => ⟨key, 1, .granted⟩)⟩]
  [⟨.protect none "s/" keys, granted⟩,
    ⟨.revoke 0 "s/" (testRecipientId alice),
      granted.map (tombstone testRecipientId (testRecipientId alice))⟩]

theorem sortRules_singleton {p : ProtectPrefix}
    (h : p.recipients.Pairwise (fun a b => (compare a.key b.key).isLE = true)) :
    sortRules [p] = [p] := by
  unfold sortRules sortRecipients
  rw [List.mergeSort_singleton, List.map_singleton, List.mergeSort_of_pairwise h]

theorem aliceRevoked_protect (keys : List Bytes) (hne : keys ≠ [])
    (hsorted : keys.Pairwise (fun a b => (compare a b).isLE = true)) :
    Step testRecipientId [] (.protect none "s/" keys)
      [⟨.protect none "s/" keys, [⟨"s/", keys.map (fun key => ⟨key, 1, .granted⟩)⟩]⟩] := by
  have hp : History.policy testRecipientId [] (.protect none "s/" keys) =
      .ok [⟨"s/", keys.map (fun key => ⟨key, 1, .granted⟩)⟩] := if_neg hne
  have hreads : ∀ i ∈ (PolicyOp.protect none "s/" keys).reads, i < 0 := by
    simp [PolicyOp.reads, PolicyOp.parents]
  have hs := Step.write hreads hp
  rwa [sortRules_singleton (List.pairwise_map.mpr hsorted)] at hs

theorem aliceRevoked_parent (keys : List Bytes) : (aliceRevoked keys).Parent 0 1 :=
  ⟨_, rfl, by simp [PolicyOp.parents]⟩

theorem aliceRevoked_names {keys : List Bytes} {n : Nat}
    (h : (aliceRevoked keys).NamesAt n "s/" alice) :
    TransGen (aliceRevoked keys).Parent n 1 := by
  obtain ⟨m, hm, hnames⟩ := h
  match n with
  | 0 => exact .single (aliceRevoked_parent keys)
  | 1 =>
    cases hm
    exact hnames.elim
  | n + 2 => simp [aliceRevoked] at hm

theorem aliceRevoked_revokes {keys : List Bytes} (h : keys.head? = some alice) :
    (aliceRevoked keys).Revokes testRecipientId 1 "s/" alice := by
  cases keys with
  | nil => cases h
  | cons key keys =>
    cases h
    exact ⟨0, testRecipientId alice, _, ⟨alice, 1, .granted⟩, rfl, rfl, rfl⟩

theorem aliceRevoked_revoke (keys : List Bytes)
    (hother : keys.any (fun key => testRecipientId key ≠ testRecipientId alice) = true)
    (hsorted : keys.Pairwise (fun a b => (compare a b).isLE = true)) :
    Step testRecipientId
      [⟨.protect none "s/" keys, [⟨"s/", keys.map (fun key => ⟨key, 1, .granted⟩)⟩]⟩]
      (.revoke 0 "s/" (testRecipientId alice)) (aliceRevoked keys) := by
  let rule : ProtectPrefix := ⟨"s/", keys.map (fun key => ⟨key, 1, .granted⟩)⟩
  have hgranted : rule.grantedKeys = keys := by
    simp [rule, ProtectPrefix.grantedKeys, List.filter_map, Function.comp_def]
  have hp : revokeRules testRecipientId [rule] "s/" (testRecipientId alice) =
      .ok [tombstone testRecipientId (testRecipientId alice) rule] := by
    have hl : lookup ProtectPrefix.pathPrefix "s/" [rule] = some rule := rfl
    unfold revokeRules
    rw [hl]
    simp only [hgranted, hother, if_true]
    rfl
  have hkeys : (tombstone testRecipientId (testRecipientId alice) rule).recipients.map (·.key) =
      keys := by
    refine (map_key_modifyFirst (fun e => testRecipientId e.key = testRecipientId alice)
      (RecipientEntry.set_key rule.nextEpoch .revoked) rule.recipients).trans ?_
    simp [rule, Function.comp_def]
  have hreads : ∀ i ∈ (PolicyOp.revoke 0 "s/" (testRecipientId alice)).reads, i < 1 := by
    simp [PolicyOp.reads, PolicyOp.parents]
  have hs := Step.write (H := [⟨.protect none "s/" keys, [rule]⟩]) hreads hp
  rwa [sortRules_singleton (List.pairwise_map.mp (hkeys.symm ▸ hsorted))] at hs

/-- The first register of the key is tombstoned, the second one still grants it. -/
theorem doubled_key_survives_revoke :
    ReflTransGen (fun H H' => ∃ op, Step testRecipientId H op H') []
        (aliceRevoked [alice, alice, bob]) ∧
      Revokes testRecipientId (aliceRevoked [alice, alice, bob]) 1 "s/" alice ∧
      (∀ n, NamesAt (aliceRevoked [alice, alice, bob]) n "s/" alice →
        TransGen (Parent (aliceRevoked [alice, alice, bob])) n 1) ∧
      ∃ p ∈ rules (aliceRevoked [alice, alice, bob]) (some 1),
        p.pathPrefix = "s/" ∧ alice ∈ p.grantedKeys := by
  have hprotect := aliceRevoked_protect [alice, alice, bob] (by decide) (by decide)
  have hrevoke := aliceRevoked_revoke [alice, alice, bob] (by decide) (by decide)
  exact ⟨(ReflTransGen.single ⟨_, hprotect⟩).tail ⟨_, hrevoke⟩, aliceRevoked_revokes rfl,
    fun n => aliceRevoked_names, _, List.mem_singleton_self _, rfl, by decide⟩

/-- With distinct keys the revoke holds. -/
theorem run_revocation_durable_alice :
    ∃ e, standing (rules (aliceRevoked [alice, bob]) (some 1)) "s/" alice = some e ∧
      e.state = .revoked := by
  have hprotect := aliceRevoked_protect [alice, bob] (by decide) (by decide)
  have hrevoke := aliceRevoked_revoke [alice, bob] (by decide) (by decide)
  have hrun : Run testRecipientId (aliceRevoked [alice, bob]) := by
    refine (ReflTransGen.single ⟨_, ?_, hprotect⟩).tail ⟨_, ?_, hrevoke⟩
    · intro rule hrule
      cases hrule
      decide
    · change List.Nodup [alice, bob]
      decide
  exact ((run_revocation_durable hrun).2 1 "s/" alice (aliceRevoked_revokes rfl)
    (fun n => aliceRevoked_names) 1 .refl).1

end History

end SrcControl
