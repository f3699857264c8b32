import SrcControl.Repo.MergePaths

/-!
# What a merged file holds

Resolving a path pushes at most one file, and the file says truthfully what its bytes are: the
stored blob of a side with that side's protection, a line merge of two plain sides, or
plaintext that must be sealed before it is stored.
-/

namespace SrcControl.Merge

variable {crypto : PathCrypto} {store : Store} {path : String} {prots : List Protection}
  {identity : Option crypto.SecretKey} {b o t w : Option FileEntry} {mode : FileMode}
  {M : Prop} {P : MergedFile → Prop}

/-! ## At most one file a path -/

/-- A step that succeeds pushes no file. -/
def Silent {α : Type} (m : MergeM α) : Prop :=
  ∀ acc x a, m acc = .ok x a → a.files = acc.files

/-- A step that succeeds pushes at most one file, of `P`, and exactly one under `M`. -/
def Pushes (M : Prop) (P : MergedFile → Prop) (m : MergeM Unit) : Prop :=
  ∀ acc x a, m acc = .ok x a →
    (¬ M ∧ a.files = acc.files) ∨ ∃ f, P f ∧ a.files = acc.files ++ [f]

theorem bind_run_ok {α β : Type} {m : MergeM α} {f : α → MergeM β} {acc a : MergeAcc} {y : β}
    (h : (m >>= f) acc = .ok y a) : ∃ x mid, m acc = .ok x mid ∧ f x mid = .ok y a := by
  rw [bind_run] at h
  cases hm : m acc with
  | error e mid =>
    rw [hm] at h
    cases h
  | ok x mid =>
    rw [hm] at h
    exact ⟨x, mid, rfl, h⟩

namespace Silent

theorem modify {g : MergeAcc → MergeAcc} (h : ∀ acc, (g acc).files = acc.files) :
    Silent (modify g : MergeM Unit) := by
  intro acc x a hrun
  cases hrun
  exact h acc

theorem pure {α : Type} (x : α) : Silent (pure x : MergeM α) := by
  intro acc y a hrun
  cases hrun
  rfl

theorem ite {α : Type} {c : Prop} [Decidable c] {m m' : MergeM α} (hm : Silent m)
    (hm' : Silent m') : Silent (if c then m else m') := by
  split_ifs
  · exact hm
  · exact hm'

theorem pushConflict (p : String) : Silent (pushConflict p) := .modify (fun _ => rfl)

theorem carryKnownWraps (e : FileEntry) : Silent (carryKnownWraps prots e) :=
  .ite (.ite (.modify (fun _ => rfl)) (.pure _)) (.pure _)

end Silent

namespace Pushes

theorem pushFile {f : MergedFile} (h : P f) : Pushes M P (pushFile f) := by
  intro acc x a hrun
  cases hrun
  exact .inr ⟨f, h, rfl⟩

theorem pure (h : ¬ M) (x : Unit) : Pushes M P (pure x : MergeM Unit) :=
  fun acc y a hrun => .inl ⟨h, Silent.pure x acc y a hrun⟩

theorem bind {α : Type} {m : MergeM α} {f : α → MergeM Unit} (hm : Silent m)
    (hf : ∀ x, Pushes M P (f x)) : Pushes M P (m >>= f) := by
  intro acc y a hrun
  obtain ⟨x, mid, hmid, hrest⟩ := bind_run_ok hrun
  have h := hf x mid y a hrest
  rwa [hm acc x mid hmid] at h

/-- After a read only what was read matters. -/
theorem try_ {α : Type} {x : Except Error α} {f : α → MergeM Unit}
    (hf : ∀ v, x = .ok v → Pushes M P (f v)) : Pushes M P (Merge.try_ x >>= f) := by
  intro acc y a hrun
  obtain ⟨v, mid, hmid, hrest⟩ := bind_run_ok hrun
  cases x with
  | error e => cases hmid
  | ok u =>
    cases hmid
    exact hf v rfl _ y a hrest

/-- A run over paths pushes at most one file for each of them, in order. -/
theorem forM {M : String → Prop} {P : String → MergedFile → Prop} {f : String → MergeM PUnit}
    (hf : ∀ p, Pushes (M p) (P p) (f p)) (hP : ∀ p g, P p g → g.path = p) {ps : List String}
    {acc acc' : MergeAcc} (h : ps.forM f acc = .ok () acc') :
    ∃ new, acc'.files = acc.files ++ new ∧ (new.map (·.path)).Sublist ps ∧
      (∀ g ∈ new, P g.path g) ∧ ∀ p ∈ ps, M p → ∃ g ∈ new, g.path = p := by
  induction ps generalizing acc with
  | nil =>
    cases h
    exact ⟨[], by simp, List.Sublist.refl _, by simp, by simp⟩
  | cons p ps ih =>
    obtain ⟨x, mid, hmid, hrest⟩ := bind_run_ok (f := fun _ => ps.forM f) h
    obtain ⟨new, hnew, hsub, hlab, hmust⟩ := ih hrest
    rcases hf p acc x mid hmid with ⟨hM, hsame⟩ | ⟨g, hg, hone⟩
    · refine ⟨new, by rw [hnew, hsame], hsub.cons p, hlab, fun q hq hMq => ?_⟩
      rcases List.mem_cons.mp hq with rfl | hq
      · exact absurd hMq hM
      · exact hmust q hq hMq
    · refine ⟨g :: new, by rw [hnew, hone, List.append_assoc, List.singleton_append], ?_, ?_, ?_⟩
      · rw [List.map_cons, hP p g hg]
        exact hsub.cons_cons p
      · intro g' hg'
        rcases List.mem_cons.mp hg' with rfl | hg'
        · exact (hP p g' hg).symm ▸ hg
        · exact hlab g' hg'
      · intro q hq hMq
        rcases List.mem_cons.mp hq with rfl | hq
        · exact ⟨g, List.mem_cons_self, hP q g hg⟩
        · obtain ⟨g', hg', hgq⟩ := hmust q hq hMq
          exact ⟨g', List.mem_cons_of_mem g hg', hgq⟩

end Pushes

/-! ## Labels -/

/-- What a merged file's bytes are, by its flags: a side's stored blob under that side's
protection, a line merge of two plain sides, or plaintext to be sealed. -/
inductive Labelled (crypto : PathCrypto) (store : Store) (path : String)
    (prots : List Protection) (identity : Option crypto.SecretKey) (b o t : Option FileEntry)
    (f : MergedFile) : Prop
  | stored (e : FileEntry) (he : e ∈ o ∨ e ∈ t) (hne : f.needsEncrypt = false)
      (hbytes : store.blobBytes e.id = .ok f.bytes)
      (hbit : e.perms &&& PROTECTED = f.perms &&& PROTECTED)
  | lines (oe te : FileEntry) (ho : o = some oe) (ht : t = some te)
      (hop : oe.perms &&& PROTECTED = 0) (htp : te.perms &&& PROTECTED = 0) (ob tb bb : Bytes)
      (os ts : String) (hob : store.blobBytes oe.id = .ok ob)
      (htb : store.blobBytes te.id = .ok tb)
      (hbb : readBase (fun be => plainInput crypto store be prots identity path) b = .ok bb)
      (hos : fromUtf8 ob = some os) (hts : fromUtf8 tb = some ts)
      (hne : f.needsEncrypt = false) (hperms : f.perms = 0)
      (hbytes : f.bytes = intoBytes (Diff3.mergeLines ((fromUtf8 bb).getD "") os ts).text)
  | plaintext (hne : f.needsEncrypt = true) (hperms : f.perms = PROTECTED)

/-- Both sides keep the path, neither as the base has it nor as the other does, and one is
protected; or a protected side that changed the path survives the other's deletion. -/
def MustSeal (b o t : Option FileEntry) : Prop :=
  (∃ oe te, o = some oe ∧ t = some te ∧ protKey oe ≠ protKey te ∧
    some (protKey oe) ≠ b.map protKey ∧ some (protKey te) ≠ b.map protKey ∧
    (oe.perms &&& PROTECTED ≠ 0 ∨ te.perms &&& PROTECTED ≠ 0)) ∨
  ∃ e, (o = some e ∧ t = none ∨ o = none ∧ t = some e) ∧ b ≠ none ∧
    some (protKey e) ≠ b.map protKey ∧ e.perms &&& PROTECTED ≠ 0

/-- The file of a path: labelled, and sealed where it must be. -/
structure LabelledAt (crypto : PathCrypto) (store : Store) (prots : List Protection)
    (identity : Option crypto.SecretKey) (b o t : Option FileEntry) (path : String)
    (f : MergedFile) : Prop where
  label : Labelled crypto store path prots identity b o t f
  at_path : f.path = path
  sealed : MustSeal b o t → f.needsEncrypt = true ∧ f.perms = PROTECTED

theorem protected_bit (x : UInt8) : x &&& PROTECTED = 0 ∨ x &&& PROTECTED = PROTECTED := by
  have h : ∀ y : BitVec 8, y &&& 1#8 = 0#8 ∨ y &&& 1#8 = 1#8 := by decide
  rcases h x.toBitVec with h | h
  · exact .inl (UInt8.toBitVec_inj.mp h)
  · exact .inr (UInt8.toBitVec_inj.mp h)

theorem or_protected (x y : UInt8) : (x ||| y) &&& PROTECTED = 0 ↔
    x &&& PROTECTED = 0 ∧ y &&& PROTECTED = 0 := by
  have hd : (x ||| y) &&& PROTECTED = x &&& PROTECTED ||| y &&& PROTECTED :=
    UInt8.toBitVec_inj.mp BitVec.and_or_distrib_right
  rw [hd]
  rcases protected_bit x with hx | hx <;> rcases protected_bit y with hy | hy <;>
    rw [hx, hy] <;> decide

theorem zero_bit : (0 : UInt8) = 0 &&& PROTECTED := by decide

theorem not_mustSeal_of_plain (ho : ∀ e ∈ o, e.perms &&& PROTECTED = 0)
    (ht : ∀ e ∈ t, e.perms &&& PROTECTED = 0) : ¬ MustSeal b o t := by
  rintro (⟨oe, te, rfl, rfl, -, -, -, hp | hp⟩ | ⟨e, ⟨rfl, -⟩ | ⟨-, rfl⟩, -, -, hp⟩)
  · exact hp (ho oe rfl)
  · exact hp (ht te rfl)
  · exact hp (ho e rfl)
  · exact hp (ht e rfl)

/-- A fast path settles the keys, so nothing has to be sealed there. -/
theorem not_mustSeal_of_settled (h : o.map protKey = t.map protKey ∨
    o.map protKey = b.map protKey ∨ t.map protKey = b.map protKey) : ¬ MustSeal b o t := by
  rintro (⟨oe, te, rfl, rfl, hne, hob, htb, -⟩ | ⟨e, ⟨rfl, rfl⟩ | ⟨rfl, rfl⟩, hb, heb, -⟩)
  · rcases h with h | h | h
    · exact hne (Option.some_inj.mp h)
    · exact hob h
    · exact htb h
  · rcases h with h | h | h
    · cases h
    · exact heb h
    · exact hb (Option.map_eq_none_iff.mp h.symm)
  · rcases h with h | h | h
    · cases h
    · exact hb (Option.map_eq_none_iff.mp h.symm)
    · exact heb h

theorem mergeContents_pushes {perms : UInt8} {needsEncrypt : Bool} {ob tb bb : Bytes}
    (hlines : ∀ os ts, fromUtf8 ob = some os → fromUtf8 tb = some ts →
      P ⟨path, mode, intoBytes (Diff3.mergeLines ((fromUtf8 bb).getD "") os ts).text, perms,
        needsEncrypt⟩)
    (hkeep : P ⟨path, mode, ob, perms, needsEncrypt⟩) :
    Pushes M P (mergeContents path mode perms needsEncrypt ob tb bb) := by
  unfold mergeContents
  split
  · next os ts hos hts =>
    exact .bind (.ite (.pushConflict _) (.pure _)) (fun _ => .pushFile (hlines os ts hos hts))
  · exact .bind (.pushConflict _) (fun _ => .bind (.modify (fun _ => rfl))
      (fun _ => .pushFile hkeep))

theorem takePlain_pushes (hw : ∀ e ∈ w, (e ∈ o ∨ e ∈ t) ∧ e.perms &&& PROTECTED = 0)
    (hm : ¬ MustSeal b o t) : Pushes (MustSeal b o t) (LabelledAt crypto store prots identity b o t path)
      (takePlain store path mode w) := by
  cases w with
  | none => exact .pure hm _
  | some e =>
    obtain ⟨he, hp⟩ := hw e rfl
    exact .try_ (fun bytes hb => .pushFile
      ⟨.stored e he rfl hb (hp.trans zero_bit), rfl, fun h => absurd h hm⟩)

theorem takeWinner_pushes (hw : ∀ e ∈ w, e ∈ o ∨ e ∈ t) (hm : ¬ MustSeal b o t) :
    Pushes (MustSeal b o t) (LabelledAt crypto store prots identity b o t path)
      (takeWinner store path mode prots w) := by
  cases w with
  | none => exact .pure hm _
  | some e =>
    refine .bind (.carryKnownWraps e) (fun _ => .try_ (fun bytes hb => .pushFile ?_))
    exact ⟨.stored e (hw e rfl) rfl hb rfl, rfl, fun h => absurd h hm⟩

theorem mergePlain_pushes (hp : ∀ e, e ∈ b ∨ e ∈ o ∨ e ∈ t → e.perms &&& PROTECTED = 0) :
    Pushes (MustSeal b o t) (LabelledAt crypto store prots identity b o t path) (mergePlain store path b o t) := by
  have hm : ¬ MustSeal b o t :=
    not_mustSeal_of_plain (fun e he => hp e (.inr (.inl he))) (fun e he => hp e (.inr (.inr he)))
  have ho : ∀ e ∈ o, (e ∈ o ∨ e ∈ t) ∧ e.perms &&& PROTECTED = 0 :=
    fun e he => ⟨.inl he, hp e (.inr (.inl he))⟩
  have ht : ∀ e ∈ t, (e ∈ o ∨ e ∈ t) ∧ e.perms &&& PROTECTED = 0 :=
    fun e he => ⟨.inr he, hp e (.inr (.inr he))⟩
  have hlone : ∀ e, e ∈ o ∨ e ∈ t → Pushes (MustSeal b o t) (LabelledAt crypto store prots identity b o t path)
      (do
        pushConflict path
        let bytes ← try_ (store.blobBytes e.id)
        pushFile (plain path e.mode bytes)) := by
    intro e he
    refine .bind (.pushConflict _) (fun _ => .try_ (fun bytes hb => .pushFile ?_))
    exact ⟨.stored e he rfl hb ((hp e (.inr he)).trans zero_bit), rfl, fun h => absurd h hm⟩
  unfold mergePlain
  simp only
  split_ifs
  · exact takePlain_pushes ho hm
  · exact takePlain_pushes ht hm
  · exact takePlain_pushes ho hm
  · cases o with
    | none =>
      cases t with
      | none => exact .pure hm _
      | some te => exact hlone te (.inr rfl)
    | some oe =>
      cases t with
      | none => exact hlone oe (.inl rfl)
      | some te =>
        have hop := hp oe (.inr (.inl rfl))
        have htp := hp te (.inr (.inr rfl))
        refine .try_ (fun ob hob => .try_ (fun tb htb => .try_ (fun bb hbb => ?_)))
        refine mergeContents_pushes (fun os ts hos hts => ?_) ?_
        · have hbase : readBase (fun be => plainInput crypto store be prots identity path) b =
              .ok bb := by
            cases b with
            | none => exact hbb
            | some be =>
              have hbe : be.perms &&& PROTECTED = 0 := hp be (.inl rfl)
              rw [← hbb]
              exact if_pos hbe
          exact ⟨.lines oe te rfl rfl hop htp ob tb bb os ts hob htb hbase hos hts rfl rfl rfl, rfl,
            fun h => absurd h hm⟩
        · exact ⟨.stored oe (.inl rfl) rfl hob (hop.trans zero_bit), rfl, fun h => absurd h hm⟩

/-- An input whose bit is clear is read as it is stored. -/
theorem plainInput_plain {e : FileEntry} (h : e.perms &&& PROTECTED = 0) :
    plainInput crypto store e prots identity path = store.blobBytes e.id := if_pos h

theorem mergeProtected_pushes : Pushes (MustSeal b o t) (LabelledAt crypto store prots identity b o t path)
    (mergeProtected crypto store path b o t prots identity) := by
  have hlone : ∀ e, e ∈ o ∨ e ∈ t → (e.perms &&& PROTECTED = 0 → ¬ MustSeal b o t) →
      Pushes (MustSeal b o t) (LabelledAt crypto store prots identity b o t path) (do
        pushConflict path
        let perms := e.perms &&& PROTECTED
        let bytes ← try_ (plainInput crypto store e prots identity path)
        pushFile ⟨path, e.mode, bytes, perms, perms ≠ 0⟩) := by
    intro e he hm
    refine .bind (.pushConflict _) (fun _ => .try_ (fun bytes hb => .pushFile ?_))
    rcases protected_bit e.perms with hp | hp
    · rw [plainInput_plain hp] at hb
      rw [hp]
      exact ⟨.stored e he (by simp) hb (hp.trans zero_bit), rfl, fun h => absurd h (hm hp)⟩
    · rw [hp]
      have hne : decide (PROTECTED ≠ (0 : UInt8)) = true := by decide
      exact ⟨.plaintext hne rfl, rfl, fun _ => ⟨hne, rfl⟩⟩
  unfold mergeProtected
  simp only
  split_ifs with h₁ h₂ h₃
  · exact takeWinner_pushes (fun e he => .inl he) (not_mustSeal_of_settled (.inl h₁))
  · exact takeWinner_pushes (fun e he => .inr he) (not_mustSeal_of_settled (.inr (.inl h₂)))
  · exact takeWinner_pushes (fun e he => .inl he) (not_mustSeal_of_settled (.inr (.inr h₃)))
  · cases o with
    | none =>
      cases t with
      | none => exact .pure (not_mustSeal_of_plain (by simp) (by simp)) _
      | some te =>
        exact hlone te (.inr rfl)
          (fun hp => not_mustSeal_of_plain nofun (fun e he => Option.some_inj.mp he ▸ hp))
    | some oe =>
      cases t with
      | none =>
        exact hlone oe (.inl rfl)
          (fun hp => not_mustSeal_of_plain (fun e he => Option.some_inj.mp he ▸ hp) nofun)
      | some te =>
        refine .try_ (fun ob hob => .try_ (fun tb htb => .try_ (fun bb hbb => ?_)))
        rcases protected_bit (oe.perms ||| te.perms) with hperms | hperms
        · obtain ⟨hop, htp⟩ := (or_protected oe.perms te.perms).mp hperms
          have hm : ¬ MustSeal b (some oe) (some te) :=
            not_mustSeal_of_plain (fun e he => Option.some_inj.mp he ▸ hop)
              (fun e he => Option.some_inj.mp he ▸ htp)
          rw [plainInput_plain hop] at hob
          rw [plainInput_plain htp] at htb
          rw [hperms]
          refine mergeContents_pushes (fun os ts hos hts => ?_) ?_
          · exact ⟨.lines oe te rfl rfl hop htp ob tb bb os ts hob htb hbb hos hts (by simp) rfl rfl,
              rfl, fun h => absurd h hm⟩
          · exact ⟨.stored oe (.inl rfl) (by simp) hob (hop.trans zero_bit), rfl,
              fun h => absurd h hm⟩
        · rw [hperms]
          have hne : decide (PROTECTED ≠ (0 : UInt8)) = true := by decide
          exact mergeContents_pushes (fun os ts _ _ => ⟨.plaintext hne rfl, rfl, fun _ => ⟨hne, rfl⟩⟩)
            ⟨.plaintext hne rfl, rfl, fun _ => ⟨hne, rfl⟩⟩

/-- Resolving a path pushes at most one file, labelled as the path demands. -/
theorem mergePath_pushes : Pushes (MustSeal b o t) (LabelledAt crypto store prots identity b o t path)
    (mergePath crypto store path b o t prots identity) := by
  unfold mergePath
  split_ifs with h
  · exact mergeProtected_pushes
  · refine mergePlain_pushes (fun e he => ?_)
    by_contra hp
    have hmem : e ∈ [b, o, t].reduceOption := by
      rw [List.reduceOption_mem_iff]
      rcases he with he | he | he <;> simp [Option.mem_def.mp he]
    exact h (List.any_eq_true.mpr ⟨e, hmem, by simpa using hp⟩)

/-- What `three_way_files` flattens before it merges. -/
structure Flattened (fuel : Nat) (store : Store) (base : Option Side) (ours theirs : Side)
    (bF oF tF : FileMap) : Prop where
  base : baseEntries fuel store base = .ok bF
  ours : TreeEntries.treeFileEntriesWithPerms fuel store ours.1 = .ok oF
  theirs : TreeEntries.treeFileEntriesWithPerms fuel store theirs.1 = .ok tF

/-- A finished merge lists at most one file for each path of its inputs, in order and labelled. -/
theorem threeWayFiles_labelled {fuel : Nat} {base : Option Side} {ours theirs : Side}
    {acc : MergeAcc} (h : threeWayFiles crypto fuel store base ours theirs identity = .ok acc) :
    ∃ bF oF tF, Flattened fuel store base ours theirs bF oF tF ∧
      (acc.files.map (·.path)).Sublist (BTreeSet.ofList (bF.keys ++ oF.keys ++ tF.keys)).toList ∧
      (∀ f ∈ acc.files, LabelledAt crypto store [ours.2, theirs.2, (base.map (·.2)).getD default]
        identity bF[f.path]? oF[f.path]? tF[f.path]? f.path f) ∧
      ∀ p, MustSeal bF[p]? oF[p]? tF[p]? → ∃ f ∈ acc.files, f.path = p := by
  unfold threeWayFiles at h
  obtain ⟨bF, hb, h⟩ := Fallible.bind_ok h
  obtain ⟨oF, ho, h⟩ := Fallible.bind_ok h
  obtain ⟨tF, ht, h⟩ := Fallible.bind_ok h
  simp only at h
  split at h
  case h_2 => cases h
  rename_i acc' hrun
  obtain ⟨-, -, h⟩ := Fallible.bind_ok h
  cases h
  obtain ⟨new, hnew, hsub, hlab, hmust⟩ := Pushes.forM (fun p => mergePath_pushes)
    (fun p g hg => hg.at_path) hrun
  rw [List.nil_append] at hnew
  refine ⟨bF, oF, tF, ⟨hb, ho, ht⟩, hnew ▸ hsub, hnew ▸ hlab, fun p hp => hnew ▸ hmust p ?_ hp⟩
  rw [BTreeSet.mem_toList_ofList]
  simp only [List.mem_append, BTreeMap.mem_keys_iff]
  rcases hp with ⟨oe, -, hoe, -⟩ | ⟨e, ⟨he, -⟩ | ⟨-, he⟩, -⟩
  · exact .inl (.inr ⟨oe, hoe⟩)
  · exact .inl (.inr ⟨e, he⟩)
  · exact .inr ⟨e, he⟩

end SrcControl.Merge
