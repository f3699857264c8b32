import SrcControl.Lib.TextReader
import SrcControl.Repo.Diff3Again
import SrcControl.Repo.MergeOutcomes

/-!
# Merging what was merged before

A tree that holds the files of a clean merge comes out of a merge with theirs as it is, where each
text that both sides changed keeps the hunks of both.
-/

namespace SrcControl.Merge

open SrcControl.MergeOutcomes

variable {crypto : PathCrypto} {store : Store} {path : String} {mode : FileMode}
  {b o t m w : Option FileEntry} {d : MergeAcc} {prots : List Protection}
  {identity : Option crypto.SecretKey}

/-- The entry holds the files that a path resolved to, under the id of their bytes. -/
structure Stored (store : Store) (path : String) (d : MergeAcc) (m : Option FileEntry) : Prop where
  entry : ∀ x, m = some x → ∃ f ∈ d.files, Copies store (path, x) f
  file : ∀ f ∈ d.files, ∃ x, m = some x ∧ Copies store (path, x) f

/-- Equal blobs have one id. -/
def OneId (store : Store) : Prop :=
  ∀ id id' bytes, store.blobBytes id = .ok bytes → store.blobBytes id' = .ok bytes → id = id'

theorem delta_takePlain (h : delta (takePlain store path mode w) = .ok d) :
    d.conflicts = [] ∧ (w = none ∧ d.files = [] ∨ ∃ e bytes, w = some e ∧
      store.blobBytes e.id = .ok bytes ∧ d.files = [plain path mode bytes]) := by
  cases w with
  | none =>
    cases h
    exact ⟨rfl, .inl ⟨rfl, rfl⟩⟩
  | some e =>
    cases hb : store.blobBytes e.id with
    | error err =>
      simp only [takePlain, hb] at h
      cases h
    | ok bytes =>
      simp only [takePlain, hb] at h
      cases h
      exact ⟨rfl, .inr ⟨e, bytes, rfl, hb, rfl⟩⟩

/-- What is stored for an entry taken plain is the entry with the merged mode. -/
theorem Stored.of_takePlain (hone : OneId store) (hm : Stored store path d m)
    (h : delta (takePlain store path mode w) = .ok d) :
    m.map (·.id) = w.map (·.id) ∧ HasBlob store m ∧
      ∀ x, m = some x → x.perms = 0 ∧ x.mode = mode := by
  obtain ⟨-, ⟨rfl, hfiles⟩ | ⟨e, bytes, rfl, hb, hfiles⟩⟩ := delta_takePlain h
  · have hnone : m = none := by
      cases m with
      | none => rfl
      | some x =>
        obtain ⟨f, hf, -⟩ := hm.entry x rfl
        rw [hfiles] at hf
        cases hf
    rw [hnone]
    exact ⟨rfl, fun x hx => (by cases hx), fun x hx => (by cases hx)⟩
  · obtain ⟨x, rfl, bytes', hb', hcopy⟩ := hm.file (plain path mode bytes) (by rw [hfiles]; simp)
    simp only [plain, MergedFile.mk.injEq, true_and, and_true] at hcopy
    obtain ⟨hmode, rfl, hperms⟩ := hcopy
    have hid := hone _ _ _ hb' hb
    refine ⟨congrArg some hid, fun y hy => ?_, fun y hy => ?_⟩
    · cases hy
      exact ⟨_, hb'⟩
    · cases hy
      exact ⟨hperms.symm, hmode.symm⟩

def idOf (e : Option FileEntry) : Option ObjectId := e.map (·.id)

/-- Both sides changed the path, differently, and hold texts there. -/
structure BothChanged (store : Store) (b o t : Option FileEntry) (bt os ts : String) : Prop where
  ours : ∃ oe, o = some oe ∧ store.blobBytes oe.id = .ok (intoBytes os)
  theirs : ∃ te, t = some te ∧ store.blobBytes te.id = .ok (intoBytes ts)
  base : ∃ bb, readBase (fun be => store.blobBytes be.id) b = .ok bb ∧ bt = (fromUtf8 bb).getD ""
  differ : idOf o ≠ idOf t ∧ idOf o ≠ idOf b ∧ idOf t ≠ idOf b

/-- The merged text keeps the hunks of both sides and is not a lone newline. -/
def KeepsBoth (bt os ts : String) : Prop :=
  (Diff3.mergeLines bt os ts).text ≠ "\n" ∧
    Diff3.Keeps bt os (Diff3.mergeLines bt os ts).text ∧
    Diff3.Keeps bt ts (Diff3.mergeLines bt os ts).text

theorem toList_loop_eq (bs : ByteArray) (i : Nat) (r : List UInt8) :
    ByteArray.toList.loop bs i r = r.reverse ++ bs.data.toList.drop i := by
  fun_induction ByteArray.toList.loop bs i r with
  | case1 i r hlt ih =>
    have hlt' : i < bs.data.toList.length := by
      rw [Array.length_toList]
      exact hlt
    have hget : bs.get! i = bs.data.toList[i] := by
      change bs.data.getD i default = _
      rw [Array.getElem_toList, Array.getD, dif_pos (show i < bs.data.size from hlt)]
      rfl
    rw [ih, List.drop_eq_getElem_cons hlt', List.reverse_cons, List.append_assoc,
      List.singleton_append, hget]
  | case2 i r hge =>
    have hlen : bs.data.toList.length ≤ i := by
      rw [Array.length_toList]
      exact Nat.le_of_not_lt hge
    rw [List.drop_eq_nil_of_le hlen, List.append_nil]

theorem toList_eq_data (bs : ByteArray) : bs.toList = bs.data.toList := by
  rw [ByteArray.toList, toList_loop_eq, List.reverse_nil, List.nil_append, List.drop_zero]

theorem fromUtf8_eq_some {bs : Bytes} {s : String} : fromUtf8 bs = some s ↔ intoBytes s = bs := by
  rw [fromUtf8, intoBytes, toList_eq_data]
  exact ByteReader.fromUTF8_bytes

theorem delta_mergeContents {ob tb bb : Bytes} (hclean : d.conflicts = [])
    (h : delta (mergeContents path mode 0 false ob tb bb) = .ok d) :
    ∃ os ts, ob = intoBytes os ∧ tb = intoBytes ts ∧
      (Diff3.mergeLines ((fromUtf8 bb).getD "") os ts).conflicted = false ∧
      d.files = [⟨path, mode, intoBytes (Diff3.mergeLines ((fromUtf8 bb).getD "") os ts).text, 0,
        false⟩] := by
  rw [mergeContents] at h
  split at h
  · rename_i os ts hos hts
    refine ⟨os, ts, (fromUtf8_eq_some.mp hos).symm, (fromUtf8_eq_some.mp hts).symm, ?_⟩
    cases hconf : (Diff3.mergeLines ((fromUtf8 bb).getD "") os ts).conflicted with
    | true =>
      simp only [hconf, pushConflictIf, if_true] at h
      cases h
      cases hclean
    | false =>
      simp only [hconf, pushConflictIf] at h
      cases h
      exact ⟨rfl, rfl⟩
  · cases h
    cases hclean

def modeOf (b o t : Option FileEntry) : FileMode :=
  mergeMode (b.map (·.mode)) (o.map (·.mode)) (t.map (·.mode))

/-- A path resolves to one side's entry, or both sides changed it and their texts merge. -/
inductive Resolves (store : Store) (path : String) (b o t : Option FileEntry) (d : MergeAcc) : Prop
  | take (w : Option FileEntry) (hw : idOf o = idOf t ∧ w = o ∨ idOf o = idOf b ∧ w = t ∨
        idOf o ≠ idOf b ∧ idOf o ≠ idOf t ∧ idOf t = idOf b ∧ w = o)
      (h : delta (takePlain store path (modeOf b o t) w) = .ok d)
  | text (bt os ts : String) (h : BothChanged store b o t bt os ts)
      (hclean : (Diff3.mergeLines bt os ts).conflicted = false)
      (hfiles : d.files = [⟨path, modeOf b o t, intoBytes (Diff3.mergeLines bt os ts).text, 0,
        false⟩])

theorem mergePlain_resolves (hclean : d.conflicts = [])
    (h : delta (mergePlain store path b o t) = .ok d) : Resolves store path b o t d := by
  unfold mergePlain at h
  simp only at h
  split_ifs at h with h1 h2 h3
  · exact .take o (.inl ⟨h1, rfl⟩) h
  · exact .take t (.inr (.inl ⟨h2, rfl⟩)) h
  · exact .take o (.inr (.inr ⟨h2, h1, h3, rfl⟩)) h
  · have hdrop : ∀ {e : FileEntry}, delta (do
        pushConflict path
        let bytes ← try_ (store.blobBytes e.id)
        pushFile (plain path e.mode bytes)) = .ok d → False := by
      intro e h
      cases hb : store.blobBytes e.id with
      | error err =>
        rw [hb] at h
        cases h
      | ok bytes =>
        rw [hb] at h
        cases h
        cases hclean
    cases o with
    | none =>
      cases t with
      | none => exact absurd rfl h1
      | some te => exact (hdrop h).elim
    | some oe =>
      cases t with
      | none => exact (hdrop h).elim
      | some te =>
        simp only at h
        cases hob : store.blobBytes oe.id with
        | error err =>
          rw [hob] at h
          cases h
        | ok ob =>
          cases htb : store.blobBytes te.id with
          | error err =>
            rw [hob, htb] at h
            cases h
          | ok tb =>
            cases hbb : readBase (fun be => store.blobBytes be.id) b with
            | error err =>
              rw [hob, htb, hbb] at h
              cases h
            | ok bb =>
              rw [hob, htb, hbb] at h
              obtain ⟨os, ts, rfl, rfl, hconf, hfiles⟩ := delta_mergeContents hclean h
              exact .text _ os ts ⟨⟨oe, rfl, hob⟩, ⟨te, rfl, htb⟩, ⟨bb, hbb, rfl⟩, h1, h2, h3⟩ hconf
                hfiles

/-- A regular file, executable or not. -/
def Regular (e : Option FileEntry) : Prop := ∀ x, e = some x → x.mode = .FILE ∨ x.mode = .EXEC

/-- Merging the merged mode again gives it back. -/
theorem modeOf_again (hb : Regular b) (ho : Regular o) (ht : Regular t)
    (hm : ∀ x, m = some x → x.mode = modeOf b o t) :
    ∀ x, m = some x → x.mode = modeOf b m t := by
  rintro x rfl
  have hx := hm x rfl
  rw [modeOf] at hx ⊢
  rw [Option.map_some, hx]
  cases b with
  | none =>
    cases o with
    | none =>
      cases t with
      | none => rfl
      | some te => rcases ht te rfl with h | h <;> simp [h, mergeMode]
    | some oe =>
      cases t with
      | none => rfl
      | some te =>
        rcases ho oe rfl with h | h <;> rcases ht te rfl with h' | h' <;>
          simp [h, h', mergeMode, FileMode.FILE, FileMode.EXEC]
  | some be =>
    cases o with
    | none =>
      cases t with
      | none => rfl
      | some te => rcases ht te rfl with h | h <;> simp [h, mergeMode]
    | some oe =>
      cases t with
      | none => rfl
      | some te =>
        rcases hb be rfl with h'' | h'' <;> rcases ho oe rfl with h | h <;>
          rcases ht te rfl with h' | h' <;>
          simp [h, h', h'', mergeMode, FileMode.FILE, FileMode.EXEC]

theorem delta_mergeContents_clean {bb : Bytes} {os ts r : String}
    (h : Diff3.mergeLines ((fromUtf8 bb).getD "") os ts = ⟨r, false⟩) :
    delta (mergeContents path mode 0 false (intoBytes os) (intoBytes ts) bb) =
      .ok { files := [⟨path, mode, intoBytes r, 0, false⟩] } := by
  rw [mergeContents, fromUtf8_eq_some.mpr rfl, fromUtf8_eq_some.mpr rfl]
  simp only [h]
  rfl

/-- Texts under different ids differ. -/
theorem BothChanged.texts_ne (hone : OneId store) {bt os ts : String}
    (h : BothChanged store b o t bt os ts) {x : FileEntry} (hx : idOf b = some x.id)
    (hblob : store.blobBytes x.id = .ok (intoBytes bt)) : os ≠ bt ∧ ts ≠ bt ∧ os ≠ ts := by
  obtain ⟨⟨oe, rfl, ho⟩, ⟨te, rfl, ht⟩, -, hot, hob, htb⟩ := h
  rw [hx] at hob htb
  refine ⟨?_, ?_, ?_⟩
  · rintro rfl
    exact hob (congrArg some (hone _ _ _ ho hblob))
  · rintro rfl
    exact htb (congrArg some (hone _ _ _ ht hblob))
  · rintro rfl
    exact hot (congrArg some (hone _ _ _ ho ht))

theorem mergePlain_again (hone : OneId store) (hb : Regular b) (ho : Regular o) (ht : Regular t)
    (hkeep : ∀ bt os ts, BothChanged store b o t bt os ts → KeepsBoth bt os ts)
    (hr : Resolves store path b o t d) (hm : Stored store path d m) :
    Settled store path m (mergePlain store path b m t) := by
  cases hr with
  | take w hw h =>
    obtain ⟨hid, hblob, hplain⟩ := hm.of_takePlain hone h
    have hid : idOf m = idOf w := hid
    have hmode := modeOf_again hb ho ht (fun x hx => (hplain x hx).2)
    have htaken : ∀ w', idOf w' = idOf m →
        Settled store path m (takePlain store path (modeOf b m t) w') :=
      fun w' hw' => takePlain_settled hblob hw' (fun x hx => ⟨(hplain x hx).1, hmode x hx⟩)
    unfold mergePlain
    simp only
    split_ifs with h1 h2 h3
    · exact htaken m rfl
    · refine htaken t ?_
      rcases hw with ⟨heq, rfl⟩ | ⟨-, rfl⟩ | ⟨hne, -, -, rfl⟩
      · rw [hid, heq]
      · exact hid.symm
      · exact absurd (hid.symm.trans h2) hne
    · exact htaken m rfl
    · rcases hw with ⟨heq, rfl⟩ | ⟨-, rfl⟩ | ⟨-, -, htb, -⟩
      · exact absurd (hid.trans heq) h1
      · exact absurd hid h1
      · exact absurd htb h3
  | text bt os ts h hclean hfiles =>
    have hkeeps := hkeep bt os ts h
    obtain ⟨x, rfl, mb, hmb, hcopy⟩ := hm.file _ (by rw [hfiles]; exact List.mem_singleton_self _)
    simp only [MergedFile.mk.injEq, true_and, and_true] at hcopy
    obtain ⟨hxmode, rfl, hperms⟩ := hcopy
    have hblob : HasBlob store (some x) := fun y hy => by
      cases hy
      exact ⟨_, hmb⟩
    have hmode : ∀ y, some x = some y → y.perms = 0 ∧ y.mode = modeOf b (some x) t := by
      refine fun y hy => ⟨?_, modeOf_again hb ho ht (fun z hz => ?_) y hy⟩
      · cases hy
        exact hperms.symm
      · cases hz
        exact hxmode.symm
    unfold mergePlain
    simp only
    split_ifs with h1 h2 h3
    · exact takePlain_settled hblob rfl hmode
    · -- the merged text is not the base's: both sides would be the base up to its newline
      obtain ⟨bb, hbb, hbt⟩ := h.base
      have hbase : bt = (Diff3.mergeLines bt os ts).text := by
        cases b with
        | none => cases h2
        | some be =>
          have hbe : x.id = be.id := Option.some.inj h2
          have hread : readBase (fun be => store.blobBytes be.id) (some be) =
              .ok (intoBytes (Diff3.mergeLines bt os ts).text) := by
            rw [readBase, ← hbe, hmb]
          have hbytes := Except.ok.inj (hbb.symm.trans hread)
          rw [hbytes, fromUtf8_eq_some.mpr rfl] at hbt
          exact hbt
      obtain ⟨hob, htb, hot⟩ := h.texts_ne hone h2.symm (hbase ▸ hmb)
      have hko := hkeeps.2.1
      have hkt := hkeeps.2.2
      rw [← hbase] at hko hkt
      rcases Diff3.keeps_base hko hkt with heq | heq | heq
      · exact absurd heq hob
      · exact absurd heq htb
      · exact absurd heq hot
    · exact absurd h3 h.differ.2.2
    · obtain ⟨te, rfl, htb⟩ := h.theirs
      obtain ⟨bb, hbb, hbt⟩ := h.base
      have hclean' := Diff3.mergeLines_keeps_theirs hkeeps.1 hkeeps.2.2
      rw [hbt] at hclean'
      have hrun : delta (do
          let ob ← try_ (store.blobBytes x.id)
          let tb ← try_ (store.blobBytes te.id)
          let bb ← try_ (readBase (fun be => store.blobBytes be.id) b)
          mergeContents path (modeOf b (some x) (some te)) 0 false ob tb bb) =
          .ok { files := [⟨path, modeOf b (some x) (some te),
            intoBytes (Diff3.mergeLines ((fromUtf8 bb).getD "") os ts).text, 0, false⟩] } := by
        rw [hmb, htb, hbb, hbt]
        exact delta_mergeContents_clean hclean'
      refine ⟨_, hrun, rfl, rfl, fun f => ?_⟩
      obtain ⟨-, hxm⟩ := hmode x rfl
      rw [List.mem_singleton]
      constructor
      · rintro rfl
        refine ⟨x, _, rfl, hmb, ?_⟩
        rw [← hperms, hxm, hbt]
      · rintro ⟨y, bytes, hy, hbytes, rfl⟩
        cases hy
        obtain rfl := Except.ok.inj (hmb.symm.trans hbytes)
        rw [← hperms, hxm, hbt]

/-! ## Trees -/

variable {fuel : Nat} {base : Option Side} {ours theirs merged : Side} {acc : MergeAcc}
  {bF oF tF mF : FileMap}

/-- A finished merge collects what its paths resolve to, and no path lies below another. -/
theorem threeWayFiles_collected (hflat : Flattened fuel store base ours theirs bF oF tF)
    (h : threeWayFiles crypto fuel store base ours theirs identity = .ok acc) :
    Collected (fun p => delta (mergePath crypto store p bF[p]? oF[p]? tF[p]?
        [ours.2, theirs.2, (base.map (·.2)).getD default] identity))
      (· ∈ (BTreeSet.ofList (bF.keys ++ oF.keys ++ tF.keys)).toList) acc ∧
    checkPathCollisions (acc.files.map (·.path)) = .ok () := by
  unfold threeWayFiles at h
  obtain ⟨bF', hb, h⟩ := Fallible.bind_ok h
  obtain ⟨oF', ho, h⟩ := Fallible.bind_ok h
  obtain ⟨tF', ht, h⟩ := Fallible.bind_ok h
  obtain rfl := Except.ok.inj (hflat.base.symm.trans hb)
  obtain rfl := Except.ok.inj (hflat.ours.symm.trans ho)
  obtain rfl := Except.ok.inj (hflat.theirs.symm.trans ht)
  simp only at h
  split at h
  case h_2 => cases h
  rename_i acc' hrun
  obtain ⟨⟨⟩, hcheck, hacc⟩ := Fallible.bind_ok h
  cases hacc
  refine ⟨?_, hcheck⟩
  rcases Collected.forM (fun p => mergePath_appendOnly) (fun p => rfl) _ Collected.empty with
    ⟨acc'', hrun', hcol⟩ | ⟨e, acc'', hrun', -⟩
  · obtain rfl : acc = acc'' := by
      have heq := hrun.symm.trans hrun'
      cases heq
      rfl
    exact hcol.congr (fun p => by simp)
  · have heq := hrun.symm.trans hrun'
    cases heq

def Unprotected (e : Option FileEntry) : Prop := ∀ x, e = some x → x.perms &&& PROTECTED = 0

theorem mergePath_plain (hb : Unprotected b) (ho : Unprotected o) (ht : Unprotected t) :
    mergePath crypto store path b o t prots identity = mergePlain store path b o t := by
  have hnone : ([b, o, t].reduceOption.any (fun e => e.perms &&& PROTECTED ≠ 0)) = false := by
    rw [List.any_eq_false]
    intro e he
    rw [List.reduceOption_mem_iff] at he
    have hzero : e.perms &&& PROTECTED = 0 := by
      rcases List.mem_cons.mp he with h | he
      · exact hb e h.symm
      · rcases List.mem_cons.mp he with h | he
        · exact ho e h.symm
        · exact ht e (List.mem_singleton.mp he).symm
    simp [hzero]
  rw [mergePath, hnone]
  rfl

theorem Resolves.at_path (h : Resolves store path b o t d) :
    ∀ f ∈ d.files, f.path = path ∧ f.perms = 0 := by
  intro f hf
  cases h with
  | take w hw h =>
    obtain ⟨-, ⟨-, hfiles⟩ | ⟨e, bytes, -, -, hfiles⟩⟩ := delta_takePlain h
    · rw [hfiles] at hf
      cases hf
    · rw [hfiles, List.mem_singleton] at hf
      exact ⟨by rw [hf]; rfl, by rw [hf]; rfl⟩
  | text bt os ts h hclean hfiles =>
    rw [hfiles, List.mem_singleton] at hf
    exact ⟨by rw [hf], by rw [hf]⟩

theorem forall₂_functional {α β : Type} {R : α → β → Prop} (hR : ∀ a b b', R a b → R a b' → b = b')
    {xs : List α} {ys zs : List β} (h : List.Forall₂ R xs ys) (h' : List.Forall₂ R xs zs) :
    ys = zs := by
  induction h generalizing zs with
  | nil => exact (List.forall₂_nil_left_iff.mp h').symm
  | cons hab _ ih =>
    cases h' with
    | cons hab' h' => rw [hR _ _ _ hab hab', ih h']

theorem copies_functional (e : String × FileEntry) (f f' : MergedFile) (h : Copies store e f)
    (h' : Copies store e f') : f = f' := by
  obtain ⟨bytes, hbytes, rfl⟩ := h
  obtain ⟨bytes', hbytes', rfl⟩ := h'
  obtain rfl := Except.ok.inj (hbytes.symm.trans hbytes')
  rfl

/-- What the trees of a merge hold: regular files without protection. -/
structure PlainFiles (m : FileMap) : Prop where
  unprotected : ∀ p : String, Unprotected m[p]?
  regular : ∀ p : String, Regular m[p]?

/-- The files of a tree are those that the merge lists. -/
def Holds (store : Store) (mF : FileMap) (acc : MergeAcc) : Prop :=
  List.Forall₂ (Copies store) mF.toList acc.files

theorem Holds.file (h : Holds store mF acc) {x : FileEntry} (hx : mF[path]? = some x) :
    ∃ f ∈ acc.files, Copies store (path, x) f := by
  obtain ⟨i, hi, hget⟩ := List.mem_iff_getElem.mp ((BTreeMap.mem_toList_iff mF path x).mpr hx)
  obtain ⟨hlen, hall⟩ := List.forall₂_iff_get.mp h
  have hcopy := hall i hi (hlen ▸ hi)
  simp only [List.get_eq_getElem, hget] at hcopy
  exact ⟨_, List.getElem_mem _, hcopy⟩

theorem Holds.mem_path (h : Holds store mF acc) {x : FileEntry} (hx : mF[path]? = some x) :
    path ∈ acc.files.map (·.path) := by
  obtain ⟨f, hf, bytes, -, heq⟩ := h.file hx
  exact List.mem_map.mpr ⟨f, hf, by rw [heq]⟩

theorem Holds.entry (h : Holds store mF acc) {f : MergedFile} (hf : f ∈ acc.files) :
    ∃ x, mF[f.path]? = some x ∧ Copies store (f.path, x) f := by
  obtain ⟨i, hi, rfl⟩ := List.mem_iff_getElem.mp hf
  obtain ⟨hlen, hall⟩ := List.forall₂_iff_get.mp h
  have hcopy := hall i (hlen ▸ hi) hi
  have hmem := List.getElem_mem (hlen ▸ hi : i < mF.toList.length)
  simp only [List.get_eq_getElem] at hcopy
  have hpath : acc.files[i].path = (mF.toList.get ⟨i, hlen ▸ hi⟩).1 := by
    obtain ⟨bytes, -, heq⟩ := hcopy
    rw [heq]
    rfl
  rw [hpath]
  exact ⟨_, (BTreeMap.mem_toList_iff mF _ _).mp hmem, hcopy⟩

/-- Merging the tree of a clean merge with theirs against the same base gives its files again,
where each text that both sides changed keeps the hunks of both. -/
theorem threeWayFiles_again (hone : OneId store)
    (hflat : Flattened fuel store base ours theirs bF oF tF) (hb : PlainFiles bF)
    (ho : PlainFiles oF) (ht : PlainFiles tF)
    (h : threeWayFiles crypto fuel store base ours theirs identity = .ok acc)
    (hclean : acc.conflicts = [])
    (hm : TreeEntries.treeFileEntriesWithPerms fuel store merged.1 = .ok mF)
    (hholds : Holds store mF acc)
    (hkeep : ∀ (p : String) bt os ts, BothChanged store bF[p]? oF[p]? tF[p]? bt os ts →
      KeepsBoth bt os ts) :
    ∃ acc', threeWayFiles crypto fuel store base merged theirs identity = .ok acc' ∧
      acc'.files = acc.files ∧ acc'.conflicts = [] ∧ acc'.sidecars = [] := by
  obtain ⟨hcol, hcheck⟩ := threeWayFiles_collected hflat h
  have hresolves : ∀ p ∈ (BTreeSet.ofList (bF.keys ++ oF.keys ++ tF.keys)).toList, ∃ d,
      delta (mergePath crypto store p bF[p]? oF[p]? tF[p]?
        [ours.2, theirs.2, (base.map (·.2)).getD default] identity) = .ok d ∧
      Resolves store p bF[p]? oF[p]? tF[p]? d := by
    intro p hp
    obtain ⟨d, hd⟩ := hcol.ok p hp
    refine ⟨d, hd, ?_⟩
    rw [mergePath_plain (hb.unprotected p) (ho.unprotected p) (ht.unprotected p)] at hd
    refine mergePlain_resolves (List.eq_nil_iff_forall_not_mem.mpr (fun c hc => ?_)) hd
    have hin := (hcol.conflicts c).mpr ⟨p, d, hp, by
      rw [mergePath_plain (hb.unprotected p) (ho.unprotected p) (ht.unprotected p)]
      exact hd, hc⟩
    rw [hclean] at hin
    cases hin
  -- each merged file came from the run at its own path
  have hfrom : ∀ f ∈ acc.files, f.path ∈ (BTreeSet.ofList (bF.keys ++ oF.keys ++ tF.keys)).toList ∧
      f.perms = 0 ∧ ∀ d, delta (mergePath crypto store f.path bF[f.path]? oF[f.path]? tF[f.path]?
        [ours.2, theirs.2, (base.map (·.2)).getD default] identity) = .ok d → f ∈ d.files := by
    intro f hf
    obtain ⟨p, d, hp, hd, hin⟩ := (hcol.files f).mp hf
    obtain ⟨d', hd', hres⟩ := hresolves p hp
    obtain rfl := Except.ok.inj (hd.symm.trans hd')
    obtain ⟨rfl, hperms⟩ := hres.at_path f hin
    refine ⟨hp, hperms, fun d'' hd'' => ?_⟩
    obtain rfl := Except.ok.inj (hd.symm.trans hd'')
    exact hin
  have hplain : ∀ p : String, Unprotected mF[p]? := by
    intro p x hx
    obtain ⟨f, hf, bytes, -, rfl⟩ := hholds.file hx
    have hperms := (hfrom _ hf).2.1
    simp only at hperms
    rw [hperms]
    rfl
  have hsettled : ∀ p, Settled store p mF[p]? (mergePath crypto store p bF[p]? mF[p]? tF[p]?
      [merged.2, theirs.2, (base.map (·.2)).getD default] identity) := by
    intro p
    rw [mergePath_plain (hb.unprotected p) (hplain p) (ht.unprotected p)]
    by_cases hp : p ∈ (BTreeSet.ofList (bF.keys ++ oF.keys ++ tF.keys)).toList
    · obtain ⟨d, hd, hres⟩ := hresolves p hp
      refine mergePlain_again hone (hb.regular p) (ho.regular p) (ht.regular p) (hkeep p)
        hres ⟨fun x hx => ?_, fun f hf => ?_⟩
      · obtain ⟨f, hf, hcopy⟩ := hholds.file hx
        have hpath : f.path = p := by
          obtain ⟨bytes, -, rfl⟩ := hcopy
          rfl
        have hin := (hfrom f hf).2.2
        rw [hpath] at hin
        exact ⟨f, hin d hd, hcopy⟩
      · obtain ⟨x, hx, hcopy⟩ := hholds.entry ((hcol.files f).mpr ⟨p, d, hp, hd, hf⟩)
        obtain ⟨rfl, -⟩ := hres.at_path f hf
        exact ⟨x, hx, hcopy⟩
    · have habsent : ∀ {m : FileMap}, (∀ x, m[p]? = some x →
          p ∈ (BTreeSet.ofList (bF.keys ++ oF.keys ++ tF.keys)).toList) → m[p]? = none := by
        intro m hm
        cases hx : m[p]? with
        | none => rfl
        | some x => exact absurd (hm x hx) hp
      have hmem : ∀ {x}, (bF[p]? = some x ∨ oF[p]? = some x ∨ tF[p]? = some x) →
          p ∈ (BTreeSet.ofList (bF.keys ++ oF.keys ++ tF.keys)).toList := by
        intro x hx
        rw [BTreeSet.mem_toList_ofList]
        simp only [List.mem_append, BTreeMap.mem_keys_iff]
        rcases hx with hx | hx | hx
        · exact .inl (.inl ⟨x, hx⟩)
        · exact .inl (.inr ⟨x, hx⟩)
        · exact .inr ⟨x, hx⟩
      have hmnone : mF[p]? = none := habsent (fun x hx => by
        obtain ⟨f, hf, bytes, -, rfl⟩ := hholds.file hx
        exact (hfrom _ hf).1)
      rw [habsent (fun x hx => hmem (.inl hx)), habsent (fun x hx => hmem (.inr (.inr hx))), hmnone]
      exact mergePlain_settled (.inl ⟨rfl, rfl⟩) (fun x hx => by cases hx) (fun x hx => by cases hx)
  have hflat' : Flattened fuel store base merged theirs bF mF tF := ⟨hflat.base, hm, hflat.theirs⟩
  have hkeys : ∀ (p : String) x, mF[p]? = some x →
      p ∈ (BTreeSet.ofList (bF.keys ++ mF.keys ++ tF.keys)).toList := by
    intro p x hx
    rw [BTreeSet.mem_toList_ofList]
    simp only [List.mem_append, BTreeMap.mem_keys_iff]
    exact .inl (.inr ⟨x, hx⟩)
  have hapart : ∀ (p a : String) x y, mF[p]? = some x → mF[a]? = some y →
      a ∉ SlashPath.ancestors p := fun p a x y hx hy ha =>
    checkPathCollisions_ok_iff.mp hcheck p (hholds.mem_path hx) a ha (hholds.mem_path hy)
  have hblob : ∀ (p : String) x, mF[p]? = some x → ∃ bytes, store.blobBytes x.id = .ok bytes := by
    intro p x hx
    obtain ⟨f, -, bytes, hbytes, -⟩ := hholds.file hx
    exact ⟨bytes, hbytes⟩
  obtain ⟨acc', hok, hcopies, hconf, hside⟩ :=
    threeWayFiles_settled hflat' hsettled hkeys hapart hblob
  exact ⟨acc', hok, forall₂_functional copies_functional hcopies hholds, hconf, hside⟩

/-- A clean merge whose result keeps the hunks of both sides is a fixed point of the merge, for
texts and for trees of plain files. -/
theorem merge_again (crypto : PathCrypto) :
    (∀ bt os ts r, Diff3.mergeLines bt os ts = ⟨r, false⟩ → r ≠ "\n" → Diff3.Keeps bt os r →
      Diff3.Keeps bt ts r → Diff3.mergeLines bt r ts = ⟨r, false⟩ ∧
        ((os = "" ∨ Diff3.endsWithNewline os = Diff3.endsWithNewline r) →
          Diff3.mergeLines bt os r = ⟨r, false⟩)) ∧
    ∀ (fuel : Nat) (store : Store) (base : Option Side) (ours theirs merged : Side)
      (identity : Option crypto.SecretKey) (acc : MergeAcc) (bF oF tF mF : FileMap),
      OneId store → Flattened fuel store base ours theirs bF oF tF →
      PlainFiles bF → PlainFiles oF → PlainFiles tF →
      threeWayFiles crypto fuel store base ours theirs identity = .ok acc → acc.conflicts = [] →
      TreeEntries.treeFileEntriesWithPerms fuel store merged.1 = .ok mF → Holds store mF acc →
      (∀ (p : String) bt os ts, BothChanged store bF[p]? oF[p]? tF[p]? bt os ts →
        KeepsBoth bt os ts) →
      ∃ acc', threeWayFiles crypto fuel store base merged theirs identity = .ok acc' ∧
        acc'.files = acc.files ∧ acc'.conflicts = [] ∧ acc'.sidecars = [] := by
  refine ⟨fun bt os ts r _ hr hko hkt => ⟨Diff3.mergeLines_keeps_theirs hr hkt, fun hnl =>
    Diff3.mergeLines_keeps_ours hr hko hnl⟩, ?_⟩
  intro fuel store base ours theirs merged identity acc bF oF tF mF hone hflat hb ho ht h hclean
    hm hholds hkeep
  exact threeWayFiles_again hone hflat hb ho ht h hclean hm hholds hkeep

/-- Ours changes the first line and theirs the last: the merged text keeps both hunks. -/
theorem merge_again_apart :
    Diff3.mergeLines "a\nb\nc\n" "A\nb\nC\n" "a\nb\nC\n" = ⟨"A\nb\nC\n", false⟩ ∧
      Diff3.mergeLines "a\nb\nc\n" "A\nb\nc\n" "A\nb\nC\n" = ⟨"A\nb\nC\n", false⟩ := by
  have hrun : Diff3.mergeLines "a\nb\nc\n" "A\nb\nc\n" "a\nb\nC\n" = ⟨"A\nb\nC\n", false⟩ := by
    rw [@Diff3.mergeLines_texts _ _ _ ["a", "b", "c"] ["A", "b", "c"] ["a", "b", "C"] [[0], [1]]
      (fun c => if c = [0] then ["A"] else ["C"]) (by decide) (by decide) (by decide)
      (Diff3.clusterHunks_of_sorted (by decide) (by decide))]
    · decide
    · intro c hc
      have hsub : c.Sublist (List.range 2) := by
        fin_cases hc <;> decide
      rw [Diff3.Diverges, Diff3.mergedText, Diff3.sideText_window _ _ _ .ours hsub,
        Diff3.sideText_window _ _ _ .theirs hsub]
      fin_cases hc <;> decide
  obtain ⟨htheirs, hours⟩ := (merge_again MergeTree.noCrypto).1 _ _ _ _ hrun (by decide)
    (by unfold Diff3.Keeps; decide) (by unfold Diff3.Keeps; decide)
  exact ⟨htheirs, hours (.inr (by decide))⟩

end SrcControl.Merge
