import SrcControl.Repo.Policy

/-!
# Merging rules is a join

A merged register is the newest of the registers merged into it, so neither the order nor the
grouping of a sequence of merges can be told from its result, up to the order in which rules
and recipients stand.
-/

namespace SrcControl

open Upsert

/-- The same rules with the same registers, in any order. -/
def SameMembers (a b : List ProtectPrefix) : Prop :=
  ∃ l, a.Perm l ∧ List.Forall₂ (fun p q : ProtectPrefix =>
    p.pathPrefix = q.pathPrefix ∧ p.recipients.Perm q.recipients) l b

/-- The greatest of some registers. -/
def Newest (S : Set RecipientEntry) (e : RecipientEntry) : Prop := e ∈ S ∧ ∀ r ∈ S, Before r e

/-- A sequence of merges, grouped in any way. -/
inductive Grouping
  | rules (ps : List ProtectPrefix)
  | merge (l r : Grouping)

namespace Grouping

def inputs : Grouping → List (List ProtectPrefix)
  | .rules ps => [ps]
  | .merge l r => l.inputs ++ r.inputs

def result : Grouping → List ProtectPrefix
  | .rules ps => ps
  | .merge l r => mergePrefixes l.result r.result

end Grouping

/-! ## Registers under a merge -/

theorem Before.antisymm {e r : RecipientEntry} (hk : e.key = r.key) (h : Before e r)
    (h' : Before r e) : e = r := by
  have hepoch : e.epoch = r.epoch := by
    have hle := h.epoch_le
    have hge := h'.epoch_le
    exact UInt32.toNat_inj.mp (by omega)
  have hrevoked : e.state = .revoked ↔ r.state = .revoked := by
    have hn : e.epoch.toNat = r.epoch.toNat := congrArg UInt32.toNat hepoch
    rcases h with h | ⟨-, h⟩ <;> rcases h' with h' | ⟨-, h'⟩
    · omega
    · omega
    · omega
    · exact ⟨h, h'⟩
  have hstate : e.state = r.state := by
    cases he : e.state <;> cases hr : r.state <;> simp_all
  cases e; cases r
  simp_all

theorem Newest.unique {S : Set RecipientEntry} (hS : ∀ r ∈ S, ∀ r' ∈ S, r.key = r'.key)
    {e e' : RecipientEntry} (h : Newest S e) (h' : Newest S e') : e = e' :=
  Before.antisymm (hS e h.1 e' h'.1) (h'.2 e h.1) (h.2 e' h'.1)

/-- The newest of each part, and of those the newest. -/
theorem Newest.union {S T : Set RecipientEntry} {e r : RecipientEntry} (hk : e.key = r.key)
    (h : Newest S e) (h' : Newest T r) : Newest (S ∪ T) (newer e r) := by
  obtain ⟨he, hr⟩ := before_newer e r
  refine ⟨?_, ?_⟩
  · rcases newer_eq e r hk with heq | heq
    · exact .inr (heq.symm ▸ h'.1)
    · exact .inl (heq.symm ▸ h.1)
  · rintro x (hx | hx)
    · exact (h.2 x hx).trans he
    · exact (h'.2 x hx).trans hr

/-- The registers some rule lists hold for a key under a prefix. -/
def registers (inputs : List (List ProtectPrefix)) (pre : String) (key : Bytes) :
    Set RecipientEntry :=
  {r | ∃ ps ∈ inputs, standing ps pre key = some r}

theorem registers_key {inputs : List (List ProtectPrefix)} {pre : String} {key : Bytes}
    {r : RecipientEntry} (h : r ∈ registers inputs pre key) : r.key = key := by
  obtain ⟨ps, -, hr⟩ := h
  exact standing_key hr

theorem registers_append (as bs : List (List ProtectPrefix)) (pre : String) (key : Bytes) :
    registers (as ++ bs) pre key = registers as pre key ∪ registers bs pre key := by
  ext r
  simp only [registers, List.mem_append, Set.mem_ofPred_eq, Set.mem_union, or_and_right,
    exists_or]

/-- What is held of a register: the newest there is, or nothing. -/
def Held (S : Set RecipientEntry) : Option RecipientEntry → Prop
  | none => S = ∅
  | some e => Newest S e

theorem Held.eq_some_iff {S : Set RecipientEntry} (hS : ∀ r ∈ S, ∀ r' ∈ S, r.key = r'.key)
    {x : Option RecipientEntry} (h : Held S x) {e : RecipientEntry} :
    x = some e ↔ Newest S e := by
  cases x with
  | none =>
    refine ⟨fun he => (by cases he), fun he => ?_⟩
    exact absurd he.1 (by rw [show S = ∅ from h]; exact Set.notMem_empty e)
  | some r =>
    refine ⟨fun he => Option.some_inj.mp he ▸ h, fun he => congrArg some ?_⟩
    exact Newest.unique hS h he

theorem Held.joined {S T : Set RecipientEntry} {key : Bytes} (hS : ∀ r ∈ S, r.key = key)
    (hT : ∀ r ∈ T, r.key = key) {x y : Option RecipientEntry} (hx : Held S x) (hy : Held T y) :
    Held (S ∪ T) (joined x y) := by
  cases x with
  | none =>
    rw [none_joined, show S = ∅ from hx, Set.empty_union]
    exact hy
  | some e =>
    cases y with
    | none =>
      rw [joined_none, show T = ∅ from hy, Set.union_empty]
      exact hx
    | some r =>
      exact Newest.union ((hS e hx.1).trans (hT r hy.1).symm) hx hy

/-- However the merges are grouped, the result is distinct and holds the newest registers. -/
theorem Grouping.held {g : Grouping} (hd : ∀ ps ∈ g.inputs, Distinct ps) :
    Distinct g.result ∧ ∀ pre key, Held (registers g.inputs pre key)
      (standing g.result pre key) := by
  induction g with
  | rules ps =>
    refine ⟨hd ps (List.mem_singleton_self ps), fun pre key => ?_⟩
    change Held (registers [ps] pre key) (standing ps pre key)
    have hone : registers [ps] pre key = {r | standing ps pre key = some r} := by
      ext r
      simp [registers]
    rw [hone]
    cases standing ps pre key with
    | none => exact Set.eq_empty_of_forall_notMem (fun r hr => by cases hr)
    | some e => exact ⟨rfl, fun r hr => Option.some_inj.mp hr ▸ Before.refl _⟩
  | merge l r ihl ihr =>
    obtain ⟨hl, hstandl⟩ := ihl (fun ps hps => hd ps (List.mem_append_left _ hps))
    obtain ⟨hr, hstandr⟩ := ihr (fun ps hps => hd ps (List.mem_append_right _ hps))
    refine ⟨distinct_mergePrefixes hl hr, fun pre key => ?_⟩
    change Held (registers (l.inputs ++ r.inputs) pre key)
      (standing (mergePrefixes l.result r.result) pre key)
    rw [registers_append, standing_mergePrefixes hl hr]
    exact Held.joined (fun _ => registers_key) (fun _ => registers_key) (hstandl pre key)
      (hstandr pre key)

/-! ## Rules under a merge -/

theorem mem_prefixes_foldl {ps out : List ProtectPrefix} {pre : String} :
    pre ∈ (ps.foldl absorbRule out).map (·.pathPrefix) ↔
      pre ∈ out.map (·.pathPrefix) ∨ pre ∈ ps.map (·.pathPrefix) := by
  induction ps generalizing out with
  | nil => simp
  | cons p ps ih =>
    have hone : pre ∈ (absorbRule out p).map (·.pathPrefix) ↔
        pre = p.pathPrefix ∨ pre ∈ out.map (·.pathPrefix) :=
      mem_keys_upsert (fun _ => rfl) rfl
    rw [List.foldl_cons, ih, hone, List.map_cons, List.mem_cons]
    tauto

/-- Rules never disappear. -/
theorem mem_prefixes_merge {a b : List ProtectPrefix} {pre : String} :
    pre ∈ (mergePrefixes a b).map (·.pathPrefix) ↔
      pre ∈ a.map (·.pathPrefix) ∨ pre ∈ b.map (·.pathPrefix) := by
  rw [mergePrefixes, mem_prefixes_foldl, List.map_append, List.mem_append]
  simp

theorem Grouping.mem_prefixes {g : Grouping} {pre : String} :
    pre ∈ g.result.map (·.pathPrefix) ↔ ∃ ps ∈ g.inputs, pre ∈ ps.map (·.pathPrefix) := by
  induction g with
  | rules ps => simp [inputs, result]
  | merge l r ihl ihr =>
    rw [result, mem_prefixes_merge, ihl, ihr, inputs]
    simp only [List.mem_append, or_and_right, exists_or]

/-- Distinct rules are told apart by their prefixes and registers only. -/
theorem sameRules_of_standing {a b : List ProtectPrefix} (ha : Distinct a) (hb : Distinct b)
    (hpre : ∀ pre, pre ∈ a.map (·.pathPrefix) ↔ pre ∈ b.map (·.pathPrefix))
    (hreg : ∀ pre key, standing a pre key = standing b pre key) : SameMembers a b := by
  have hrule : ∀ q ∈ b, ∃ p ∈ a, p.pathPrefix = q.pathPrefix := by
    intro q hq
    exact List.mem_map.mp ((hpre q.pathPrefix).mpr (List.mem_map_of_mem hq))
  let pick : ProtectPrefix → ProtectPrefix :=
    fun q => (lookup ProtectPrefix.pathPrefix q.pathPrefix a).getD q
  have hpick : ∀ q ∈ b, pick q ∈ a ∧ (pick q).pathPrefix = q.pathPrefix := by
    intro q hq
    obtain ⟨p, hp, hpq⟩ := hrule q hq
    have hl : lookup ProtectPrefix.pathPrefix q.pathPrefix a = some p :=
      hpq ▸ lookup_of_mem ha.prefixes hp
    have heq : pick q = p := by simp only [pick, hl, Option.getD_some]
    exact heq ▸ ⟨hp, hpq⟩
  refine ⟨b.map pick, ?_, ?_⟩
  · have hkeys : (b.map pick).map (·.pathPrefix) = b.map (·.pathPrefix) := by
      rw [List.map_map]
      exact List.map_congr_left (fun q hq => (hpick q hq).2)
    have hnodup : (b.map pick).Nodup := List.Nodup.of_map _ (hkeys ▸ hb.prefixes)
    refine (List.perm_ext_iff_of_nodup (List.Nodup.of_map _ ha.prefixes) hnodup).mpr
      (fun p => ⟨fun hp => ?_, fun hp => ?_⟩)
    · obtain ⟨q, hq, hqp⟩ := List.mem_map.mp ((hpre p.pathPrefix).mp (List.mem_map_of_mem hp))
      refine List.mem_map.mpr ⟨q, hq, ?_⟩
      have hl : lookup ProtectPrefix.pathPrefix q.pathPrefix a = some p := by
        have hof := lookup_of_mem ha.prefixes hp
        rwa [← hqp] at hof
      simp only [pick, hl, Option.getD_some]
    · obtain ⟨q, hq, rfl⟩ := List.mem_map.mp hp
      exact (hpick q hq).1
  · rw [List.forall₂_map_left_iff]
    refine List.forall₂_same.mpr (fun q hq => ⟨(hpick q hq).2, ?_⟩)
    obtain ⟨hp, hpq⟩ := hpick q hq
    refine (List.perm_ext_iff_of_nodup (List.Nodup.of_map _ (ha.keys _ hp))
      (List.Nodup.of_map _ (hb.keys q hq))).mpr (fun e => ?_)
    have hstand := hreg q.pathPrefix e.key
    rw [standing, standing, lookup_of_mem hb.prefixes hq, ← hpq, lookup_of_mem ha.prefixes hp,
      Option.bind_some, Option.bind_some] at hstand
    have hleft := lookup_eq_some_iff (k := e.key) (a := e) (ha.keys _ hp)
    have hright := lookup_eq_some_iff (k := e.key) (a := e) (hb.keys q hq)
    rw [hstand, hright] at hleft
    simpa using hleft.symm

/-- Two groupings of the same inputs, in any order and number, give the same rules. -/
theorem Grouping.sameRules {g g' : Grouping} (hd : ∀ ps ∈ g.inputs, Distinct ps)
    (hsame : ∀ ps, ps ∈ g.inputs ↔ ps ∈ g'.inputs) : SameMembers g.result g'.result := by
  obtain ⟨hg, hheld⟩ := Grouping.held hd
  obtain ⟨hg', hheld'⟩ := Grouping.held (fun ps hps => hd ps ((hsame ps).mpr hps))
  refine sameRules_of_standing hg hg' (fun pre => ?_) (fun pre key => ?_)
  · rw [Grouping.mem_prefixes, Grouping.mem_prefixes]
    exact exists_congr (fun ps => and_congr_left (fun _ => hsame ps))
  · have hset : registers g.inputs pre key = registers g'.inputs pre key := by
      ext r
      exact exists_congr (fun ps => and_congr_left (fun _ => hsame ps))
    have hkey : ∀ r ∈ registers g.inputs pre key, ∀ r' ∈ registers g.inputs pre key,
        r.key = r'.key := fun r hr r' hr' => (registers_key hr).trans (registers_key hr').symm
    refine Option.ext (fun e => ?_)
    have hother : Held (registers g.inputs pre key) (standing g'.result pre key) := by
      rw [hset]
      exact hheld' pre key
    rw [(hheld pre key).eq_some_iff hkey, hother.eq_some_iff hkey]

/-- Every rule and every recipient of an input is still there. -/
theorem mergePrefixes_keeps {a b : List ProtectPrefix} (ha : Distinct a) (hb : Distinct b)
    {p : ProtectPrefix} (hp : p ∈ a ∨ p ∈ b) :
    ∃ q ∈ mergePrefixes a b, q.pathPrefix = p.pathPrefix ∧
      ∀ r ∈ p.recipients, ∃ e ∈ q.recipients, e.key = r.key := by
  obtain ⟨q, hq, hqp⟩ := List.mem_map.mp (mem_prefixes_merge.mpr
    (hp.imp List.mem_map_of_mem List.mem_map_of_mem))
  refine ⟨q, hq, hqp, fun r hr => ?_⟩
  have hin : ∀ {c : List ProtectPrefix}, Distinct c → p ∈ c →
      standing c p.pathPrefix r.key = some r := by
    intro c hc hpc
    rw [standing, lookup_of_mem hc.prefixes hpc]
    exact lookup_of_mem (hc.keys p hpc) hr
  have hjoin : ∃ e, standing (mergePrefixes a b) p.pathPrefix r.key = some e := by
    rw [standing_mergePrefixes ha hb]
    rcases hp with hp | hp
    · rw [hin ha hp]
      cases standing b p.pathPrefix r.key <;> exact ⟨_, rfl⟩
    · rw [hin hb hp]
      cases standing a p.pathPrefix r.key <;> exact ⟨_, rfl⟩
  obtain ⟨e, he⟩ := hjoin
  obtain ⟨q', hq', hl⟩ := Option.bind_eq_some_iff.mp he
  have hfound := lookup_of_mem (distinct_mergePrefixes ha hb).prefixes hq
  rw [hqp, hq'] at hfound
  cases hfound
  exact ⟨e, lookup_mem hl⟩

/-- Merging rule lists is commutative, associative and idempotent up to order, keeps every
prefix and key, and in any sequence of merges leaves each register at its maximum. -/
theorem mergePrefixes_join {a b c : List ProtectPrefix} (ha : Distinct a) (hb : Distinct b)
    (hc : Distinct c) :
    SameMembers (mergePrefixes a b) (mergePrefixes b a) ∧
      SameMembers (mergePrefixes (mergePrefixes a b) c) (mergePrefixes a (mergePrefixes b c)) ∧
      SameMembers (mergePrefixes a a) a ∧
      (∀ p, p ∈ a ∨ p ∈ b → ∃ q ∈ mergePrefixes a b, q.pathPrefix = p.pathPrefix ∧
        ∀ r ∈ p.recipients, ∃ e ∈ q.recipients, e.key = r.key) ∧
      (∀ g : Grouping, (∀ ps ∈ g.inputs, Distinct ps) → ∀ pre key e,
        standing g.result pre key = some e ↔ Newest (registers g.inputs pre key) e) ∧
      ∀ g g' : Grouping, (∀ ps ∈ g.inputs, Distinct ps) →
        (∀ ps, ps ∈ g.inputs ↔ ps ∈ g'.inputs) → SameMembers g.result g'.result := by
  have hall : ∀ ps ∈ [a, b, c], Distinct ps := by simp [ha, hb, hc]
  have htwo : ∀ ps ∈ [a, b], Distinct ps := by simp [ha, hb]
  refine ⟨?_, ?_, ?_, fun p => mergePrefixes_keeps ha hb, fun g hg pre key e => ?_,
    fun g g' hg => Grouping.sameRules hg⟩
  · exact @Grouping.sameRules (.merge (.rules a) (.rules b)) (.merge (.rules b) (.rules a))
      htwo (fun ps => by simp [Grouping.inputs, or_comm])
  · exact @Grouping.sameRules (.merge (.merge (.rules a) (.rules b)) (.rules c))
      (.merge (.rules a) (.merge (.rules b) (.rules c))) hall
      (fun ps => by simp [Grouping.inputs])
  · exact @Grouping.sameRules (.merge (.rules a) (.rules a)) (.rules a)
      (by simp [Grouping.inputs, ha]) (fun ps => by simp [Grouping.inputs])
  · exact ((Grouping.held hg).2 pre key).eq_some_iff
      (fun r hr r' hr' => (registers_key hr).trans (registers_key hr').symm)

/-- A revocation at epoch 2 against a grant at epoch 1 and a re-grant at epoch 3. -/
theorem mergePrefixes_join_revoked :
    let rule : UInt32 → RecipientState → List ProtectPrefix :=
      fun epoch state => [⟨"secret/", [⟨[1], 1, .granted⟩, ⟨[2], epoch, state⟩]⟩]
    SameMembers (mergePrefixes (rule 1 .granted) (rule 2 .revoked))
      (mergePrefixes (rule 2 .revoked) (rule 1 .granted)) :=
  (mergePrefixes_join (c := [⟨"secret/", [⟨[1], 1, .granted⟩, ⟨[2], 3, .granted⟩]⟩])
    ⟨by decide, by decide⟩ ⟨by decide, by decide⟩ ⟨by decide, by decide⟩).1

end SrcControl
