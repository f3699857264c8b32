import SrcControl.Repo.RewrapPaths

/-!
# Rewrapping again

After a run that does not rotate, a second one finds nothing to reseal: a convergent file that is
left was skipped, and its blob opens no better than before. The paths that rewrap a blob in place
are the same ones and ask for the same recipients, so it ends with those it has.
-/

namespace SrcControl.Rewrap

open TreeEntries Fallible AccessOps Transport

section Orphans

variable {es : List (String × FileEntry)} {s : PathsRun}

/-- The files of the tree after the retargets. -/
def retargetedFiles (s : PathsRun) (es : List (String × FileEntry)) : List (String × FileEntry) :=
  es.map (fun e => (e.1, retargeted s e))

theorem getElem?_dropOrphans (b : ObjectId) : (dropOrphans es s)[b]? =
    if b ∈ s.upgradedFrom ∧ ∀ e ∈ es, e.2.id = b → s.retargets[e.1]? ≠ none then none
    else s.wrapped[b]? := by
  have hstill : b ∈ (es.filter (fun e => !s.retargets.contains e.1)).map (·.2.id) ↔
      ¬∀ e ∈ es, e.2.id = b → s.retargets[e.1]? ≠ none := by
    simp only [List.mem_map, List.mem_filter, Bool.not_eq_true', not_forall, not_not]
    constructor
    · rintro ⟨e, ⟨he, hc⟩, hid⟩
      refine ⟨e, he, hid, ?_⟩
      rwa [Std.ExtTreeMap.contains_eq_isSome_getElem?, Option.isSome_eq_false_iff,
        Option.isNone_iff_eq_none] at hc
    · rintro ⟨e, he, hid, hr⟩
      refine ⟨e, ⟨he, ?_⟩, hid⟩
      rw [Std.ExtTreeMap.contains_eq_isSome_getElem?, hr]
      rfl
  have hfold : ∀ (olds : List ObjectId) (m : WrapMap),
      (olds.foldl (fun m old =>
        if old ∈ (es.filter (fun e => !s.retargets.contains e.1)).map (·.2.id) then m
        else m.erase old) m)[b]? =
      if b ∈ olds ∧ ∀ e ∈ es, e.2.id = b → s.retargets[e.1]? ≠ none then none else m[b]? := by
    intro olds
    induction olds with
    | nil => simp
    | cons old olds ih =>
      intro m
      rw [List.foldl_cons, ih]
      by_cases hall : ∀ e ∈ es, e.2.id = b → s.retargets[e.1]? ≠ none
      · have hgone : b ∉ (es.filter (fun e => !s.retargets.contains e.1)).map (·.2.id) :=
          fun h => hstill.mp h hall
        by_cases hb : b = old
        · subst hb
          rw [if_neg hgone, BTreeMap.getElem?_erase, if_pos rfl, ite_self,
            if_pos ⟨List.mem_cons_self, hall⟩]
        · have hkeep : (if old ∈ (es.filter (fun e => !s.retargets.contains e.1)).map (·.2.id)
              then m else m.erase old)[b]? = m[b]? := by
            split_ifs
            · rfl
            · rw [BTreeMap.getElem?_erase, if_neg (Ne.symm hb)]
          simp only [hkeep, List.mem_cons, hb, false_or]
      · have hkeep : (if old ∈ (es.filter (fun e => !s.retargets.contains e.1)).map (·.2.id)
            then m else m.erase old)[b]? = m[b]? := by
          split_ifs with hold
          · rfl
          · rw [BTreeMap.getElem?_erase, if_neg]
            rintro rfl
            exact hold (hstill.mpr hall)
        rw [hkeep, if_neg fun h => hall h.2, if_neg fun h => hall h.2]
  rw [dropOrphans, hfold]
  simp only [Std.ExtTreeSet.mem_toList]

/-- A blob that a file still has keeps its wraps. -/
theorem dropOrphans_of_kept {e : String × FileEntry} (he : e ∈ es)
    (hr : s.retargets[e.1]? = none) : (dropOrphans es s)[e.2.id]? = s.wrapped[e.2.id]? := by
  rw [getElem?_dropOrphans, if_neg]
  rintro ⟨-, hall⟩
  exact hall e he rfl hr

theorem dropOrphans_of_fresh {b : ObjectId} (hb : b ∉ s.upgradedFrom) :
    (dropOrphans es s)[b]? = s.wrapped[b]? := by
  rw [getElem?_dropOrphans, if_neg fun h => hb h.1]

theorem dropOrphans_some {b : ObjectId} {wks : List WrappedKey}
    (h : (dropOrphans es s)[b]? = some wks) : s.wrapped[b]? = some wks := by
  rw [getElem?_dropOrphans] at h
  split_ifs at h
  exact h

end Orphans

section Again

variable {crypto : SealCrypto} {env env' : RewrapEnv crypto} {identity : crypto.SecretKey}
  {escrows : List Bytes} {rotate : Bool} {prefixes : List ProtectPrefix} {m₀ : WrapMap}
  {store₀ store₁ store₂ store₃ : Store} {used used' : ObjectId → Prop} {draw₀ draw₁ : Nat}
  {es : List (String × FileEntry)} {s s' : PathsRun}

theorem retargeted_of_none {e : String × FileEntry} (h : s.retargets[e.1]? = none) :
    retargeted s e = e.2 := by
  rw [retargeted, h]

theorem retargeted_of_some {e : String × FileEntry} {r : ObjectId × UInt8}
    (h : s.retargets[e.1]? = some r) : retargeted s e = ⟨r.1, e.2.mode, r.2⟩ := by
  rw [retargeted, h]

theorem retargeted_mode (s : PathsRun) (e : String × FileEntry) :
    (retargeted s e).mode = e.2.mode := by
  unfold retargeted
  split <;> rfl

/-- The record of a retarget is about the file of that path. -/
theorem Progress.retarget_of_mem
    (h : Progress env identity escrows rotate prefixes m₀ store₀ used draw₀ es s store₁)
    (hnodup : (es.map (·.1)).Nodup) {e : String × FileEntry} (he : e ∈ es) {r : ObjectId × UInt8}
    (hr : s.retargets[e.1]? = some r) :
    Resealed env identity escrows rotate prefixes m₀ store₀ draw₀ s store₁ e r := by
  obtain ⟨fe, hmem, hre⟩ := h.retargets e.1 r hr
  have hsame : (e.1, fe) = e := List.inj_on_of_nodup_map hnodup hmem he rfl
  rwa [hsame] at hre

/-- The blob of a resealed path is not one that paths were upgraded from. -/
theorem Progress.not_upgraded
    (h : Progress env identity escrows rotate prefixes m₀ store₀ used draw₀ es s store₁)
    (hused : ∀ e ∈ es, used e.2.id) {b : ObjectId} (hb : ¬used b) : b ∉ s.upgradedFrom := by
  intro hmem
  obtain ⟨e, he, rfl, -⟩ := h.upgraded b hmem
  exact hb (hused e he)

theorem inPlace_randomized (id : ObjectId) (mode : FileMode) :
    inPlace false ⟨id, mode, PROTECTED ||| RANDOMIZED⟩ = true := by
  have hbits : (PROTECTED ||| RANDOMIZED) &&& PROTECTED ≠ 0 ∧
      (PROTECTED ||| RANDOMIZED) &&& RANDOMIZED ≠ 0 := by decide
  simp [inPlace, convergent, hbits]

/-- The identity of a run is known by its public key, and the wraps of a blob by the map. -/
theorem Opens.congr {m m' : WrapMap} {id : ObjectId} {w : WrappedKey} {dek : crypto.Dek}
    (h : Opens env' identity m id w dek) (hm : m[id]? = m'[id]?)
    (hpk : env'.publicKey = env.publicKey) : Opens env identity m' id w dek := by
  refine ⟨?_, h.2⟩
  have hw := h.1
  unfold wrapOf at hw ⊢
  rwa [hm, hpk] at hw

/-- A second run that does not rotate retargets nothing. -/
theorem again_retargets
    (h : Progress env identity escrows false prefixes m₀ store₀ used draw₀ es s store₁)
    (hnodup : (es.map (·.1)).Nodup) (hgrow : Extends store₁ store₂)
    (hpk : env'.publicKey = env.publicKey)
    (h' : Progress env' identity escrows false prefixes (dropOrphans es s) store₂ used' draw₁
      (retargetedFiles s es) s' store₃) (path : String) : s'.retargets[path]? = none := by
  cases hr : s'.retargets[path]? with
  | none => rfl
  | some r =>
    obtain ⟨fe, hmem, hre⟩ := h'.retargets path r hr
    obtain ⟨e, he, heq⟩ := List.mem_map.mp hmem
    cases heq
    obtain ⟨hp, hplace, ht, ho, hget, hdec, -, -, -, -, -⟩ := hre
    simp only at hp hplace ht ho hget
    cases hr₁ : s.retargets[e.1]? with
    | some r₁ =>
      obtain ⟨-, -, -, -, -, -, -, -, rfl, -, -⟩ := h.retarget_of_mem hnodup he hr₁
      rw [retargeted_of_some hr₁, inPlace_randomized] at hplace
      cases hplace
    | none =>
      rw [retargeted_of_none hr₁] at hp hplace ho hget
      cases h.fates e he hp with
      | skipped _ _ hstuck =>
        obtain ⟨o, hobj, hnone⟩ :=
          hstuck hplace _ _ _ ht (ho.congr (dropOrphans_of_kept he hr₁) hpk)
        have hobj' := hgrow _ _ (h.grows _ _ hobj)
        rw [hget] at hobj'
        cases hobj'
        rw [hnone _ rfl] at hdec
        cases hdec
      | resealed hr₂ =>
        rw [hr₁] at hr₂
        cases hr₂
      | rewrapped hplace' _ _ _ =>
        rw [hplace] at hplace'
        cases hplace'

/-- On a blob that was there before, the second run's paths ask what the first run's did. -/
theorem again_overwrites
    (h : Progress env identity escrows false prefixes m₀ store₀ used draw₀ es s store₁)
    (hnodup : (es.map (·.1)).Nodup) {b : ObjectId}
    (hold : ∀ (path : String) (r : ObjectId × UInt8), s.retargets[path]? = some r → r.1 ≠ b) :
    overwrites escrows false prefixes crypto.recipientId (retargetedFiles s es) b =
      overwrites escrows false prefixes crypto.recipientId es b := by
  unfold overwrites retargetedFiles
  rw [List.filterMap_map]
  refine List.filterMap_congr fun e he => ?_
  cases hr : s.retargets[e.1]? with
  | none => simp only [Function.comp, retargeted_of_none hr, Prod.mk.eta]
  | some r =>
    obtain ⟨-, hplace, -, -, -, -, -, -, -, -, -⟩ := h.retarget_of_mem hnodup he hr
    rw [overwrite_eq_none (.inl hplace)]
    refine overwrite_eq_none (.inr ?_)
    change (retargeted s e).id ≠ b
    rw [retargeted_of_some hr]
    exact hold e.1 r hr

/-- The only path that asks for the recipients of a resealed blob is its own. -/
theorem again_own
    (h : Progress env identity escrows false prefixes m₀ store₀ used draw₀ es s store₁)
    (hfresh : FreshSeals crypto env.idOf draw₀ used) (hused : ∀ e ∈ es, used e.2.id)
    {path : String} {r : ObjectId × UInt8} (hr : s.retargets[path]? = some r)
    {targets : List Bytes}
    (ht : targetsOf escrows prefixes crypto.recipientId path = some targets) :
    ∀ rids ∈ overwrites escrows false prefixes crypto.recipientId (retargetedFiles s es) r.1,
      rids = targets.map crypto.recipientId := by
  intro rids hrids
  obtain ⟨x, hx, hover⟩ := List.mem_filterMap.mp hrids
  obtain ⟨e, he, rfl⟩ := List.mem_map.mp hx
  unfold overwrite at hover
  split_ifs at hover with hc
  obtain ⟨targets', ht', rfl⟩ := Option.map_eq_some_iff.mp hover
  obtain ⟨fe, -, hre⟩ := h.retargets path r hr
  have hpath : e.1 = path := by
    cases hr' : s.retargets[e.1]? with
    | none =>
      have hid := hc.2
      rw [retargeted_of_none hr'] at hid
      exact absurd (hid ▸ hused e he) (hre.unused hfresh)
    | some r' =>
      have hid := hc.2
      rw [retargeted_of_some hr'] at hid
      exact h.distinct _ _ _ _ hr' hr hid
  simp only [hpath] at ht'
  rw [ht] at ht'
  rw [Option.some.inj ht']

/-- Where something was decided, a path is rewrapped in place with the blob. -/
theorem exists_of_decided {who : String} {b : ObjectId} {rids : List String}
    (h : decided who (overwrites escrows rotate prefixes crypto.recipientId es b) = some rids) :
    ∃ e ∈ es, inPlace rotate e.2 = true ∧ e.2.id = b := by
  cases hall : overwrites escrows rotate prefixes crypto.recipientId es b with
  | nil =>
    rw [hall] at h
    cases h
  | cons x xs =>
    have hx : x ∈ overwrites escrows rotate prefixes crypto.recipientId es b := by
      rw [hall]
      exact List.mem_cons_self
    obtain ⟨e, he, hover⟩ := List.mem_filterMap.mp hx
    unfold overwrite at hover
    split_ifs at hover with hc
    exact ⟨e, he, hc⟩

/-- A second run that does not rotate leaves the recipients of every blob as they are. -/
theorem again_recipients (laws : CryptoLaws env) (hfresh : FreshSeals crypto env.idOf draw₀ used)
    (hused : ∀ e ∈ es, used e.2.id)
    (h : Progress env identity escrows false prefixes m₀ store₀ used draw₀ es s store₁)
    (hnodup : (es.map (·.1)).Nodup) (hgrow : Extends store₁ store₂)
    (hpk : env'.publicKey = env.publicKey)
    (hkeys : ∀ b wks, (dropOrphans es s)[b]? = some wks → used' b)
    (h' : Progress env' identity escrows false prefixes (dropOrphans es s) store₂ used' draw₁
      (retargetedFiles s es) s' store₃) (b : ObjectId) (rid : String) :
    WrapMap.For (dropOrphans (retargetedFiles s es) s') b rid ↔
      WrapMap.For (dropOrphans es s) b rid := by
  have hnone := again_retargets h hnodup hgrow hpk h'
  have hlast : (dropOrphans (retargetedFiles s es) s')[b]? = s'.wrapped[b]? := by
    refine dropOrphans_of_fresh fun hb => ?_
    obtain ⟨x, -, -, hr⟩ := h'.upgraded b hb
    exact hr (hnone x.1)
  unfold WrapMap.For
  rw [hlast]
  by_cases hb : used' b
  · by_cases hex : ∃ w dek, Opens env' identity (dropOrphans es s) b w dek
    · obtain ⟨w, dek, ho⟩ := hex
      have hset := h'.settled b w dek hb ho
      cases hd : decided (me env' identity) (overwrites escrows false prefixes crypto.recipientId
          (retargetedFiles s es) b) with
      | none =>
        rw [hd, Settled] at hset
        rw [hset]
      | some rids =>
        rw [hd] at hset
        obtain ⟨wks', hwks', hiff', -⟩ := hset
        -- the recipients the first run left are the ones asked for again
        have hleft : ∃ wks, (dropOrphans es s)[b]? = some wks ∧
            ∀ rid, WrapsFor wks rid ↔ rid ∈ rids := by
          by_cases hown : ∃ (path : String) (r : ObjectId × UInt8),
              s.retargets[path]? = some r ∧ r.1 = b
          · obtain ⟨path, r, hr, rfl⟩ := hown
            obtain ⟨fe, -, hre⟩ := h.retargets path r hr
            have hunused := hre.unused hfresh
            obtain ⟨-, -, ht, -, -, -, -, -, -, hwraps, -⟩ := hre
            have hne : overwrites escrows false prefixes crypto.recipientId (retargetedFiles s es)
                r.1 ≠ [] := by
              intro hnil
              rw [hnil] at hd
              cases hd
            rw [decided_const hne (again_own h hfresh hused hr ht)] at hd
            cases hd
            exact ⟨_, (dropOrphans_of_fresh (h.not_upgraded hused hunused)).trans hwraps,
              fun rid => wrapsFor_fresh laws⟩
          · push Not at hown
            rw [again_overwrites h hnodup hown] at hd
            obtain ⟨e, he, hin, rfl⟩ := exists_of_decided hd
            have hkeep : s.retargets[e.1]? = none := by
              cases hr : s.retargets[e.1]? with
              | none => rfl
              | some r =>
                obtain ⟨-, hplace, -, -, -, -, -, -, -, -, -⟩ := h.retarget_of_mem hnodup he hr
                rw [hin] at hplace
                cases hplace
            have hsame := dropOrphans_of_kept he hkeep
            have hset₁ := h.settled _ _ _ (hused e he)
              (h.opens (hused e he) (ho.congr hsame hpk))
            unfold me at hd hset₁
            rw [hpk] at hd
            rw [hd] at hset₁
            obtain ⟨wks, hwks, hiff, -⟩ := hset₁
            exact ⟨wks, hsame.trans hwks, hiff⟩
        obtain ⟨wks, hwks, hiff⟩ := hleft
        simp only [hwks', hwks, Option.some.injEq, exists_eq_left', hiff', hiff]
    · push Not at hex
      rw [h'.shut b hb hex]
  · have hm : (dropOrphans es s)[b]? = none := by
      cases hw : (dropOrphans es s)[b]? with
      | none => rfl
      | some wks => exact absurd (hkeys b wks hw) hb
    have hm' : s'.wrapped[b]? = none := by
      cases hw : s'.wrapped[b]? with
      | none => rfl
      | some wks =>
        rcases h'.keys b wks hw with hu | ⟨path, r, hr, -⟩
        · exact absurd hu hb
        · rw [hnone path] at hr
          cases hr
    rw [hm, hm']

end Again

end SrcControl.Rewrap
