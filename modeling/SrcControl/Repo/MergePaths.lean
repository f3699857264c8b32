import SrcControl.Repo.Merge

/-!
# What a run over paths collects

Resolving a set of paths collects, for each of them, what that path alone
resolves to. Where two of the three sides agree on an entry the third side's
entry is taken verbatim: this is what lets a subtree be carried unread.
-/

namespace SrcControl.Merge

variable {crypto : PathCrypto} {store : Store}

/-- What one resolution adds to the accumulator. -/
def delta (m : MergeM Unit) : Except Error MergeAcc :=
  match m {} with
  | .ok _ d => .ok d
  | .error e _ => .error e

theorem AppendOnly.run {m : MergeM Unit} (h : AppendOnly m) (acc : MergeAcc) :
    (∃ d, delta m = .ok d ∧ m acc = .ok () (MergeAcc.append acc d)) ∨
      ∃ e acc', delta m = .error e ∧ m acc = .error e acc' := by
  have ha := h acc
  unfold delta
  cases hm : m {} with
  | ok x d =>
    rw [hm] at ha
    exact .inl ⟨d, rfl, ha⟩
  | error e d =>
    rw [hm] at ha
    exact .inr ⟨e, _, rfl, ha⟩

/-- `acc` holds exactly what the paths of `S` resolve to. -/
structure Collected (res : String → Except Error MergeAcc) (S : String → Prop) (acc : MergeAcc) :
    Prop where
  ok : ∀ p, S p → ∃ d, res p = .ok d
  files : ∀ f, f ∈ acc.files ↔ ∃ p d, S p ∧ res p = .ok d ∧ f ∈ d.files
  sidecars : ∀ s, s ∈ acc.sidecars ↔ ∃ p d, S p ∧ res p = .ok d ∧ s ∈ d.sidecars
  conflicts : ∀ c, c ∈ acc.conflicts ↔ ∃ p d, S p ∧ res p = .ok d ∧ c ∈ d.conflicts

namespace Collected

variable {res : String → Except Error MergeAcc} {S S' : String → Prop} {acc : MergeAcc}

theorem empty : Collected res (fun _ => False) {} :=
  ⟨by simp, by simp, by simp, by simp⟩

theorem congr (h : Collected res S acc) (hS : ∀ p, S p ↔ S' p) : Collected res S' acc := by
  obtain rfl : S = S' := funext fun p => propext (hS p)
  exact h

theorem mem_append_iff {β : Type} {xs ys : List β} {get : MergeAcc → List β} {p : String}
    {d : MergeAcc} (hxs : ∀ x, x ∈ xs ↔ ∃ q d, S q ∧ res q = .ok d ∧ x ∈ get d)
    (hp : res p = .ok d) (hys : ys = get d) (x : β) :
    x ∈ xs ++ ys ↔ ∃ q d, (S q ∨ q = p) ∧ res q = .ok d ∧ x ∈ get d := by
  rw [List.mem_append, hxs, hys]
  constructor
  · rintro (⟨q, d', hq, hr, hx⟩ | hx)
    · exact ⟨q, d', .inl hq, hr, hx⟩
    · exact ⟨p, d, .inr rfl, hp, hx⟩
  · rintro ⟨q, d', hq | rfl, hr, hx⟩
    · exact .inl ⟨q, d', hq, hr, hx⟩
    · rw [hp] at hr
      cases hr
      exact .inr hx

theorem add (h : Collected res S acc) {p : String} {d : MergeAcc} (hp : res p = .ok d) :
    Collected res (fun q => S q ∨ q = p) (MergeAcc.append acc d) where
  ok := by
    rintro q (hq | rfl)
    · exact h.ok q hq
    · exact ⟨d, hp⟩
  files := mem_append_iff h.files hp rfl
  sidecars := mem_append_iff h.sidecars hp rfl
  conflicts := mem_append_iff h.conflicts hp rfl

/-- Resolving a list of paths either collects them all or stops at one that does not resolve. -/
theorem forM {f : String → MergeM PUnit} (hf : ∀ p, AppendOnly (f p))
    (hres : ∀ p, res p = delta (f p)) (ps : List String) (h : Collected res S acc) :
    (∃ acc', ps.forM f acc = .ok () acc' ∧ Collected res (fun q => S q ∨ q ∈ ps) acc') ∨
      ∃ e acc', ps.forM f acc = .error e acc' ∧ ∃ p ∈ ps, res p = .error e := by
  induction ps generalizing S acc with
  | nil => exact .inl ⟨acc, rfl, h.congr (by simp)⟩
  | cons p ps ih =>
    rcases (hf p).run acc with ⟨d, hd, hrun⟩ | ⟨e, acc', hd, hrun⟩
    · have hstep : (p :: ps).forM f acc = ps.forM f (MergeAcc.append acc d) := by
        change (f p >>= fun _ => ps.forM f) acc = _
        rw [bind_run, hrun]
      rw [hstep]
      rcases ih (h.add ((hres p).trans hd)) with ⟨acc', hok, hc⟩ | ⟨e, acc', herr, q, hq, hr⟩
      · exact .inl ⟨acc', hok, hc.congr (by simp [or_assoc])⟩
      · exact .inr ⟨e, acc', herr, q, by simp [hq], hr⟩
    · refine .inr ⟨e, acc', ?_, p, by simp, (hres p).trans hd⟩
      change (f p >>= fun _ => ps.forM f) acc = _
      rw [bind_run, hrun]

end Collected

/-- From any accumulator in `I`, `m` ends in `I` or with an error in `E`. -/
def Keeps {α : Type} (I : MergeAcc → Prop) (E : Error → Prop) (m : MergeM α) : Prop :=
  ∀ acc, I acc → match m acc with
    | .ok _ a => I a
    | .error e _ => E e

namespace Keeps

variable {α β : Type} {I : MergeAcc → Prop} {E : Error → Prop}

theorem pure (x : α) : Keeps I E (pure x : MergeM α) := fun _ h => h

theorem try_ {x : Except Error α} (h : ∀ e, x = .error e → E e) : Keeps I E (Merge.try_ x) := by
  intro acc ha
  cases x with
  | ok a => exact ha
  | error e => exact h e rfl

theorem bind {m : MergeM α} {f : α → MergeM β} (hm : Keeps I E m) (hf : ∀ a, Keeps I E (f a)) :
    Keeps I E (m >>= f) := by
  intro acc ha
  have h := hm acc ha
  rw [bind_run]
  cases hrun : m acc with
  | ok x a =>
    rw [hrun] at h
    exact hf x a h
  | error e a =>
    rw [hrun] at h
    exact h

theorem ite {c : Prop} [Decidable c] {m m' : MergeM α} (hm : Keeps I E m) (hm' : Keeps I E m') :
    Keeps I E (if c then m else m') := by
  split_ifs
  · exact hm
  · exact hm'

theorem modify {g : MergeAcc → MergeAcc} (h : ∀ acc, I acc → I (g acc)) :
    Keeps I E (modify g : MergeM Unit) := fun acc ha => h acc ha

end Keeps

/-- Every file collected so far lies at `path`. -/
def FilesAt (path : String) (acc : MergeAcc) : Prop := ∀ f ∈ acc.files, f.path = path

/-- The errors a path can be refused with when its blobs are stored. -/
def Refusal : Error → Prop
  | .crypto | .notAuthorized _ | .protectedMergeNeedsIdentity _ => True
  | _ => False

section Frames

variable {path : String} {mode : FileMode} {perms : UInt8} {needsEncrypt : Bool}
  {ob tb bb : Bytes} {prots : List Protection} {b o t w : Option FileEntry}
  {identity : Option crypto.SecretKey} {E : Error → Prop}

/-- The blob of a present entry is stored. -/
def HasBlob (store : Store) (e : Option FileEntry) : Prop :=
  ∀ x, e = some x → ∃ bytes, store.blobBytes x.id = .ok bytes

theorem pushFile_filesAt {f : MergedFile} (h : f.path = path) :
    Keeps (FilesAt path) E (pushFile f) := by
  refine .modify (fun acc ha g hg => ?_)
  rcases List.mem_append.mp hg with hg | hg
  · exact ha g hg
  · rwa [List.mem_singleton.mp hg]

theorem pushConflict_filesAt {p : String} : Keeps (FilesAt path) E (pushConflict p) :=
  .modify (fun _ ha => ha)

theorem mergeContents_filesAt :
    Keeps (FilesAt path) E (mergeContents path mode perms needsEncrypt ob tb bb) := by
  unfold mergeContents
  split
  · exact .bind (.ite pushConflict_filesAt (.pure _)) (fun _ => pushFile_filesAt rfl)
  · exact .bind pushConflict_filesAt
      (fun _ => .bind (.modify (fun _ ha => ha)) (fun _ => pushFile_filesAt rfl))

theorem HasBlob.refusal (h : HasBlob store w) {x : FileEntry} (hx : w = some x) :
    ∀ e, store.blobBytes x.id = .error e → Refusal e := by
  intro e he
  obtain ⟨bytes, hb⟩ := h x hx
  rw [hb] at he
  cases he

theorem HasBlob.plainInput_refusal (h : HasBlob store w) {x : FileEntry} (hx : w = some x) :
    ∀ e, plainInput crypto store x prots identity path = .error e → Refusal e := by
  intro e he
  obtain ⟨bytes, hb⟩ := h x hx
  unfold plainInput at he
  split_ifs at he with hp
  · rw [hb] at he
    cases he
  · cases identity with
    | none =>
      cases he
      trivial
    | some sk =>
      simp only [hb, bind, Except.bind, decryptWith] at he
      split at he
      · split at he
        · cases he
        · cases he
          trivial
      · cases he
        trivial

theorem takePlain_filesAt (h : HasBlob store w) :
    Keeps (FilesAt path) Refusal (takePlain store path mode w) := by
  cases w with
  | none => exact .pure _
  | some e => exact .bind (.try_ (h.refusal rfl)) (fun _ => pushFile_filesAt rfl)

theorem takeWinner_filesAt (h : HasBlob store w) :
    Keeps (FilesAt path) Refusal (takeWinner store path mode prots w) := by
  cases w with
  | none => exact .pure _
  | some e =>
    refine .bind (.ite (.ite (.modify (fun _ ha => ha)) (.pure _)) (.pure _)) (fun _ => ?_)
    exact .bind (.try_ (h.refusal rfl)) (fun _ => pushFile_filesAt rfl)

theorem mergePlain_filesAt (hb : HasBlob store b) (ho : HasBlob store o) (ht : HasBlob store t) :
    Keeps (FilesAt path) Refusal (mergePlain store path b o t) := by
  unfold mergePlain
  refine .ite (takePlain_filesAt ho) (.ite (takePlain_filesAt ht) (.ite (takePlain_filesAt ho) ?_))
  cases o with
  | none =>
    cases t with
    | none => exact .pure _
    | some te =>
      exact .bind pushConflict_filesAt
        (fun _ => .bind (.try_ (ht.refusal rfl)) (fun _ => pushFile_filesAt rfl))
  | some oe =>
    cases t with
    | none =>
      exact .bind pushConflict_filesAt
        (fun _ => .bind (.try_ (ho.refusal rfl)) (fun _ => pushFile_filesAt rfl))
    | some te =>
      refine .bind (.try_ (ho.refusal rfl)) (fun _ => .bind (.try_ (ht.refusal rfl))
        (fun _ => .bind (.try_ ?_) (fun _ => mergeContents_filesAt)))
      intro e he
      cases b with
      | none => cases he
      | some be => exact hb.refusal rfl e he

theorem mergeProtected_filesAt (hb : HasBlob store b) (ho : HasBlob store o)
    (ht : HasBlob store t) :
    Keeps (FilesAt path) Refusal (mergeProtected crypto store path b o t prots identity) := by
  unfold mergeProtected
  refine .ite (takeWinner_filesAt ho)
    (.ite (takeWinner_filesAt ht) (.ite (takeWinner_filesAt ho) ?_))
  cases o with
  | none =>
    cases t with
    | none => exact .pure _
    | some te =>
      exact .bind pushConflict_filesAt
        (fun _ => .bind (.try_ (ht.plainInput_refusal rfl)) (fun _ => pushFile_filesAt rfl))
  | some oe =>
    cases t with
    | none =>
      exact .bind pushConflict_filesAt
        (fun _ => .bind (.try_ (ho.plainInput_refusal rfl)) (fun _ => pushFile_filesAt rfl))
    | some te =>
      refine .bind (.try_ (ho.plainInput_refusal rfl)) (fun _ =>
        .bind (.try_ (ht.plainInput_refusal rfl))
        (fun _ => .bind (.try_ ?_) (fun _ => mergeContents_filesAt)))
      intro e he
      cases b with
      | none => cases he
      | some be => exact hb.plainInput_refusal rfl e he

/-- With the three blobs stored, a path resolves to files at that path, or fails for a
reason other than a missing object. -/
theorem mergePath_filesAt (hb : HasBlob store b) (ho : HasBlob store o) (ht : HasBlob store t) :
    Keeps (FilesAt path) Refusal (mergePath crypto store path b o t prots identity) :=
  .ite (mergePlain_filesAt hb ho ht) (mergeProtected_filesAt hb ho ht)

end Frames

/-- Two of the three entries agree, and `r` is the third (or their common one). -/
def Agrees (b o t r : Option FileEntry) : Prop :=
  (o = t ∧ r = o) ∨ (b = t ∧ r = o) ∨ (b = o ∧ r = t)

/-- The flag combinations a writer produces. -/
def ValidPerms (perms : UInt8) : Prop :=
  perms = 0 ∨ perms = PROTECTED ∨ perms = PROTECTED ||| RANDOMIZED

/-- `m` takes the entry `r` verbatim: its bytes, mode and perms, with nothing to report. -/
def Settled (store : Store) (path : String) (r : Option FileEntry) (m : MergeM Unit) : Prop :=
  ∃ d, delta m = .ok d ∧ d.sidecars = [] ∧ d.conflicts = [] ∧ ∀ f, f ∈ d.files ↔
    ∃ x bytes, r = some x ∧ store.blobBytes x.id = .ok bytes ∧
      f = ⟨path, x.mode, bytes, x.perms, false⟩

section Agreement

variable {path : String} {mode : FileMode} {prots : List Protection}
  {b o t r w : Option FileEntry} {identity : Option crypto.SecretKey}

theorem takePlain_settled (hr : HasBlob store r) (hid : w.map (·.id) = r.map (·.id))
    (hp : ∀ x, r = some x → x.perms = 0 ∧ x.mode = mode) :
    Settled store path r (takePlain store path mode w) := by
  cases w with
  | none =>
    cases r with
    | some x => cases hid
    | none => exact ⟨{}, rfl, rfl, rfl, by simp⟩
  | some e =>
    cases r with
    | none => cases hid
    | some x =>
      obtain ⟨bytes, hb⟩ := hr x rfl
      obtain ⟨hperms, hmode⟩ := hp x rfl
      have hex : e.id = x.id := Option.some.inj hid
      have hbe : store.blobBytes e.id = .ok bytes := by rw [hex, hb]
      have hrun : delta (takePlain store path mode (some e)) =
          .ok { files := [plain path mode bytes] } := by
        simp only [takePlain, hbe]
        rfl
      refine ⟨_, hrun, rfl, rfl, fun f => ?_⟩
      simp [hb, plain, hperms, hmode]

theorem takeWinner_settled (hr : HasBlob store r)
    (hid : w.map (fun x => (x.id, x.perms)) = r.map (fun x => (x.id, x.perms)))
    (hp : ∀ x, r = some x → x.mode = mode) :
    Settled store path r (takeWinner store path mode prots w) := by
  cases w with
  | none =>
    cases r with
    | some x => cases hid
    | none => exact ⟨{}, rfl, rfl, rfl, by simp⟩
  | some e =>
    cases r with
    | none => cases hid
    | some x =>
      obtain ⟨bytes, hb⟩ := hr x rfl
      have hmode := hp x rfl
      obtain ⟨hex, hpe⟩ : e.id = x.id ∧ e.perms = x.perms := by simpa using hid
      have hbe : store.blobBytes e.id = .ok bytes := by rw [hex, hb]
      obtain ⟨wraps, hw⟩ : ∃ wraps, carryKnownWraps prots e {} =
          .ok () { wrappedCarry := wraps } := by
        simp only [carryKnownWraps]
        split_ifs
        · exact ⟨_, rfl⟩
        · exact ⟨∅, rfl⟩
        · exact ⟨∅, rfl⟩
      have hrun : delta (takeWinner store path mode prots (some e)) =
          .ok { files := [⟨path, mode, bytes, e.perms, false⟩], wrappedCarry := wraps } := by
        simp only [delta, takeWinner, hbe, bind_run, hw]
        rfl
      refine ⟨_, hrun, rfl, rfl, fun f => ?_⟩
      simp [hb, hpe, hmode]

theorem mergeMode_agrees (h : Agrees b o t r) {x : FileEntry} (hx : r = some x) :
    mergeMode (b.map (·.mode)) (o.map (·.mode)) (t.map (·.mode)) = x.mode := by
  subst hx
  rcases h with ⟨rfl, rfl⟩ | ⟨rfl, rfl⟩ | ⟨rfl, rfl⟩
  · simp [mergeMode]
  · cases b with
    | none => rfl
    | some y =>
      simp only [mergeMode, Option.map_some, Option.some.injEq]
      split_ifs <;> rfl
  · cases b with
    | none => rfl
    | some y =>
      simp only [mergeMode, Option.map_some, Option.some.injEq]
      split_ifs with h1
      · exact h1
      · rfl

theorem mergePlain_settled (h : Agrees b o t r) (hr : HasBlob store r)
    (hp : ∀ x, r = some x → x.perms = 0) : Settled store path r (mergePlain store path b o t) := by
  have hmode : ∀ x, r = some x → x.perms = 0 ∧
      x.mode = mergeMode (b.map (·.mode)) (o.map (·.mode)) (t.map (·.mode)) :=
    fun x hx => ⟨hp x hx, (mergeMode_agrees h hx).symm⟩
  unfold mergePlain
  simp only
  split_ifs with h1 h2 h3
  · refine takePlain_settled hr ?_ hmode
    rcases h with ⟨_, rfl⟩ | ⟨_, rfl⟩ | ⟨_, rfl⟩
    · rfl
    · rfl
    · exact h1
  · refine takePlain_settled hr ?_ hmode
    rcases h with ⟨rfl, rfl⟩ | ⟨rfl, rfl⟩ | ⟨_, rfl⟩
    · rfl
    · exact h2.symm
    · rfl
  · refine takePlain_settled hr ?_ hmode
    rcases h with ⟨_, rfl⟩ | ⟨_, rfl⟩ | ⟨rfl, rfl⟩
    · rfl
    · rfl
    · exact absurd rfl h2
  · rcases h with ⟨rfl, rfl⟩ | ⟨rfl, rfl⟩ | ⟨rfl, rfl⟩
    · exact absurd rfl h1
    · exact absurd rfl h3
    · exact absurd rfl h2

theorem mergeProtected_settled (h : Agrees b o t r) (hr : HasBlob store r)
    (hsame : ∀ x y, (x ∈ b ∨ x ∈ o ∨ x ∈ t) → (y ∈ b ∨ y ∈ o ∨ y ∈ t) → x.id = y.id →
      x.perms = y.perms) :
    Settled store path r (mergeProtected crypto store path b o t prots identity) := by
  have hmode : ∀ x, r = some x →
      x.mode = mergeMode (b.map (·.mode)) (o.map (·.mode)) (t.map (·.mode)) :=
    fun x hx => (mergeMode_agrees h hx).symm
  have hkey : ∀ u v : Option FileEntry, (∀ x ∈ u, x ∈ b ∨ x ∈ o ∨ x ∈ t) →
      (∀ x ∈ v, x ∈ b ∨ x ∈ o ∨ x ∈ t) → u.map protKey = v.map protKey →
      u.map (fun x => (x.id, x.perms)) = v.map (fun x => (x.id, x.perms)) := by
    intro u v hu hv he
    cases u with
    | none =>
      cases v with
      | none => rfl
      | some y => cases he
    | some x =>
      cases v with
      | none => cases he
      | some y =>
        have hid : x.id = y.id := congrArg Prod.fst (Option.some.inj he)
        have hpe := hsame x y (hu x rfl) (hv y rfl) hid
        simp [hid, hpe]
  unfold mergeProtected
  simp only
  split_ifs with h1 h2 h3
  · refine takeWinner_settled hr ?_ hmode
    rcases h with ⟨_, rfl⟩ | ⟨_, rfl⟩ | ⟨_, rfl⟩
    · rfl
    · rfl
    · exact hkey _ _ (fun x hx => .inr (.inl hx)) (fun x hx => .inr (.inr hx)) h1
  · refine takeWinner_settled hr ?_ hmode
    rcases h with ⟨rfl, rfl⟩ | ⟨rfl, rfl⟩ | ⟨_, rfl⟩
    · rfl
    · exact hkey _ _ (fun x hx => .inl hx) (fun x hx => .inr (.inl hx)) h2.symm
    · rfl
  · refine takeWinner_settled hr ?_ hmode
    rcases h with ⟨_, rfl⟩ | ⟨_, rfl⟩ | ⟨rfl, rfl⟩
    · rfl
    · rfl
    · exact absurd rfl h2
  · rcases h with ⟨rfl, rfl⟩ | ⟨rfl, rfl⟩ | ⟨rfl, rfl⟩
    · exact absurd rfl h1
    · exact absurd rfl h3
    · exact absurd rfl h2

/-- Where two sides agree, the merge takes the third side's entry verbatim. -/
theorem mergePath_settled (h : Agrees b o t r) (hr : HasBlob store r)
    (hvalid : ∀ x, r = some x → ValidPerms x.perms)
    (hsame : ∀ x y, (x ∈ b ∨ x ∈ o ∨ x ∈ t) → (y ∈ b ∨ y ∈ o ∨ y ∈ t) → x.id = y.id →
      x.perms = y.perms) :
    Settled store path r (mergePath crypto store path b o t prots identity) := by
  unfold mergePath
  split_ifs with hany
  · exact mergeProtected_settled h hr hsame
  · refine mergePlain_settled h hr (fun x hx => ?_)
    have hmem : x ∈ [b, o, t].reduceOption := by
      rw [List.reduceOption_mem_iff]
      rcases h with ⟨_, rfl⟩ | ⟨_, rfl⟩ | ⟨_, rfl⟩ <;> simp [hx]
    have hbit : x.perms &&& PROTECTED = 0 := by
      by_contra hne
      exact hany (List.any_eq_true.mpr ⟨x, hmem, by simpa using hne⟩)
    rcases hvalid x hx with hv | hv | hv
    · exact hv
    · rw [hv] at hbit
      exact absurd hbit (by decide)
    · rw [hv] at hbit
      exact absurd hbit (by decide)

end Agreement

end SrcControl.Merge
