import Mathlib.Data.List.Nodup
import SrcControl.Lib.LossyText
import SrcControl.Lib.TextReader

/-!
# Listings of git trees

A tree is read and written as a list of raw entries, in the text format that `ls-tree -z` prints
and `mktree -z` reads. Names are byte strings throughout. The entry at a path is found by one
lookup in each directory on the way.
-/

namespace SrcControl.GitTrees

open LossyText

abbrev Bytes := List UInt8

/-- `as_bytes`. -/
def bytesOf (s : String) : Bytes := encode s.toList

structure Entry where
  mode : String
  kind : String
  oid : String
  name : Bytes
deriving DecidableEq

/-! ## The text format -/

/-- One record of `parse_tree`. -/
def parseRecord (rec : Bytes) : Option Entry :=
  if 9 ∈ rec then
    match String.fromUTF8? ⟨(rec.takeWhile (· != 9)).toArray⟩ with
    | none => none
    | some fields => match fields.toList.splitOn ' ' with
      | [mode, kind, oid] =>
        some ⟨.ofList mode, .ofList kind, .ofList oid, (rec.dropWhile (· != 9)).tail⟩
      | _ => none
  else none

def parseTree (raw : Bytes) : Option (List Entry) :=
  ((raw.splitOn 0).filter (· ≠ [])).mapM parseRecord

def Entry.record (e : Entry) : Bytes :=
  bytesOf (e.mode ++ " " ++ e.kind ++ " " ++ e.oid ++ "\t") ++ e.name

def mktreeInput (entries : List Entry) : Bytes := entries.flatMap (fun e => e.record ++ [0])

/-- A field of a record: it has no separator of the format in it. -/
def Token (s : String) : Prop := ' ' ∉ s.toList ∧ '\t' ∉ s.toList ∧ '\x00' ∉ s.toList

/-- An entry that a record can stand for. -/
structure Entry.Printable (e : Entry) : Prop where
  mode : Token e.mode
  kind : Token e.kind
  oid : Token e.oid
  name : 0 ∉ e.name

theorem bytesOf_append (s t : String) : bytesOf (s ++ t) = bytesOf s ++ bytesOf t := by
  rw [bytesOf, String.toList_append, encode_append]
  rfl

theorem fromUTF8_bytesOf (s : String) : String.fromUTF8? ⟨(bytesOf s).toArray⟩ = some s := by
  rw [ByteReader.fromUTF8_bytes, bytesOf, encode]
  have h : s.toByteArray = s.toList.utf8Encode := by simp
  rw [h]
  simp [List.utf8Encode]

variable {e : Entry}

/-- The fields of a record in front of the tab. -/
def Entry.fields (e : Entry) : String := e.mode ++ " " ++ e.kind ++ " " ++ e.oid

theorem record_eq (e : Entry) : e.record = bytesOf e.fields ++ 9 :: e.name := by
  have htab : bytesOf "\t" = [9] := by decide
  rw [Entry.record, bytesOf_append, htab, List.append_assoc]
  rfl

theorem Entry.Printable.fields (h : e.Printable) {c : Char} (hc : c = '\t' ∨ c = '\x00') :
    c ∉ e.fields.toList := by
  have hm := h.mode
  have hk := h.kind
  have ho := h.oid
  simp only [Entry.fields, String.toList_append, List.mem_append, Token] at *
  rcases hc with rfl | rfl
  · simp [hm.2.1, hk.2.1, ho.2.1]
  · simp [hm.2.2, hk.2.2, ho.2.2]

theorem parseRecord_record (h : e.Printable) : parseRecord e.record = some e := by
  have htab : (9 : UInt8) ∉ bytesOf e.fields :=
    not_mem_encode (c := '\t') (by decide) (h.fields (.inl rfl))
  have hbefore : ∀ b ∈ bytesOf e.fields, (b != 9) = true :=
    fun b hb => bne_iff_ne.mpr (fun h => htab (h ▸ hb))
  have htake : e.record.takeWhile (· != 9) = bytesOf e.fields := by
    rw [record_eq, List.takeWhile_append_of_pos hbefore]
    simp
  have hdrop : e.record.dropWhile (· != 9) = 9 :: e.name := by
    rw [record_eq, List.dropWhile_append_of_pos hbefore]
    simp
  have hsplit : e.fields.toList.splitOn ' ' = [e.mode.toList, e.kind.toList, e.oid.toList] := by
    have hfields : e.fields.toList =
        e.mode.toList ++ ' ' :: (e.kind.toList ++ ' ' :: e.oid.toList) := by
      simp [Entry.fields, String.toList_append]
    rw [hfields, List.splitOn_append_cons_self_of_not_mem h.mode.1,
      List.splitOn_append_cons_self_of_not_mem h.kind.1, List.splitOn_eq_singleton h.oid.1]
  have hmem : (9 : UInt8) ∈ e.record := by simp [record_eq]
  rw [parseRecord, if_pos hmem, htake, fromUTF8_bytesOf, hdrop]
  simp only [hsplit, String.ofList_toList, List.tail_cons]

theorem mapM_parseRecord {entries : List Entry} (h : ∀ e ∈ entries, e.Printable) :
    (entries.map Entry.record).mapM parseRecord = some entries := by
  induction entries with
  | nil => rfl
  | cons e entries ih =>
    have hrest := ih (fun e' he' => h e' (List.mem_cons_of_mem _ he'))
    simp [List.mapM_cons, parseRecord_record (h e List.mem_cons_self), hrest]

/-- What `mktree_input` writes for printable entries reads back as these entries. -/
theorem parseTree_mktreeInput {entries : List Entry} (h : ∀ e ∈ entries, e.Printable) :
    parseTree (mktreeInput entries) = some entries := by
  have hsplit : ((mktreeInput entries).splitOn 0).filter (· ≠ []) = entries.map Entry.record := by
    induction entries with
    | nil => simp [mktreeInput]
    | cons e entries ih =>
      have he := h e List.mem_cons_self
      have hnul : (0 : UInt8) ∉ e.record := by
        have hfields : (0 : UInt8) ∉ bytesOf e.fields :=
          not_mem_encode (c := '\x00') (by decide) (he.fields (.inr rfl))
        simp [record_eq, hfields, he.name]
      have hrec : mktreeInput (e :: entries) = e.record ++ 0 :: mktreeInput entries := by
        simp [mktreeInput]
      have hne : e.record ≠ [] := by simp [record_eq]
      rw [hrec, List.splitOn_append_cons_self_of_not_mem hnul,
        List.filter_cons_of_pos (by simpa using hne),
        ih (fun e' he' => h e' (List.mem_cons_of_mem _ he')), List.map_cons]
  rw [parseTree, hsplit, mapM_parseRecord h]

/-! ## Stored trees -/

/-- The listing of a stored tree: its names are distinct, and every entry can be printed. -/
structure Listing where
  entries : List Entry
  distinct : (entries.map Entry.name).Nodup
  printable : ∀ e ∈ entries, e.Printable

/-- Entries that a tree can list. -/
def Well (entries : List Entry) : Prop :=
  (entries.map Entry.name).Nodup ∧ ∀ e ∈ entries, e.Printable

theorem Listing.well (l : Listing) : Well l.entries := ⟨l.distinct, l.printable⟩

theorem well_nil : Well [] := ⟨List.nodup_nil, by simp⟩

abbrev Trees := String → Option Listing

/-- Every tree that is there stays, with its listing. -/
def Keeps (trees trees' : Trees) : Prop := ∀ oid l, trees oid = some l → trees' oid = some l

theorem Keeps.refl (trees : Trees) : Keeps trees trees := fun _ _ h => h

theorem Keeps.trans {t₁ t₂ t₃ : Trees} (h : Keeps t₁ t₂) (h' : Keeps t₂ t₃) : Keeps t₁ t₃ :=
  fun oid l hl => h' oid l (h oid l hl)

def named (entries : List Entry) (name : Bytes) : Option Entry :=
  entries.find? (fun e => e.name = name)

/-- The entries of the directory that an entry names. -/
def children (trees : Trees) (e : Entry) : List Entry :=
  if e.kind = "tree" then ((trees e.oid).map Listing.entries).getD [] else []

/-- The entry at a path, from the entries of the directory that the path starts in. -/
def entryAt (trees : Trees) : List Entry → List Bytes → Option Entry
  | _, [] => none
  | entries, name :: path =>
    if path = [] then named entries name
    else (named entries name).bind (fun e => entryAt trees (children trees e) path)

/-- The flattened tree: what is stored at a path that is not a directory. -/
def flatten (trees : Trees) (entries : List Entry) (path : List Bytes) : Option Entry :=
  (entryAt trees entries path).filter (fun e => e.kind ≠ "tree")

/-- The entries of the directory at `name`, none when there is no such directory. -/
def subdir (trees : Trees) (entries : List Entry) (name : Bytes) : List Entry :=
  ((named entries name).map (children trees)).getD []

section Lookup

variable {trees trees' : Trees} {entries entries' : List Entry} {name : Bytes} {path : List Bytes}

@[simp] theorem entryAt_root : entryAt trees entries [] = none := rfl

@[simp] theorem entryAt_name : entryAt trees entries [name] = named entries name := rfl

@[simp] theorem entryAt_empty : entryAt trees [] path = none := by
  cases path with
  | nil => rfl
  | cons name path => simp [entryAt, named]

theorem entryAt_cons (h : path ≠ []) :
    entryAt trees entries (name :: path) = entryAt trees (subdir trees entries name) path := by
  rw [entryAt, if_neg h, subdir]
  cases named entries name with
  | none => simp
  | some e => rfl

theorem well_subdir (trees : Trees) (entries : List Entry) (name : Bytes) :
    Well (subdir trees entries name) := by
  rw [subdir]
  cases named entries name with
  | none => exact well_nil
  | some e =>
    rw [Option.map_some, Option.getD_some, children]
    split_ifs
    · cases trees e.oid with
      | none => exact well_nil
      | some l => exact l.well
    · exact well_nil

theorem children_file {e : Entry} (h : e.kind ≠ "tree") : children trees e = [] := if_neg h

theorem named_eq_some (hd : (entries.map Entry.name).Nodup) :
    named entries name = some e ↔ e ∈ entries ∧ e.name = name := by
  constructor
  · intro h
    exact ⟨List.mem_of_find?_eq_some h, by simpa using List.find?_some h⟩
  · rintro ⟨he, rfl⟩
    have hsome : (named entries e.name).isSome := by
      rw [named, List.find?_isSome]
      exact ⟨e, he, by simp⟩
    obtain ⟨e', he'⟩ := Option.isSome_iff_exists.mp hsome
    have hname : e'.name = e.name := by simpa using List.find?_some he'
    rw [he', List.inj_on_of_nodup_map hd (List.mem_of_find?_eq_some he') he hname]

/-- The order in which a directory lists its entries does not matter. -/
theorem entryAt_perm (hd : (entries.map Entry.name).Nodup) (h : entries.Perm entries') :
    entryAt trees entries path = entryAt trees entries' path := by
  have hd' : (entries'.map Entry.name).Nodup := (h.map _).nodup_iff.mp hd
  have hnamed : ∀ name, named entries name = named entries' name := by
    intro name
    refine Option.ext fun e => ?_
    rw [named_eq_some hd, named_eq_some hd', h.mem_iff]
  cases path with
  | nil => rfl
  | cons name path => rw [entryAt, entryAt, hnamed]

theorem Keeps.entryAt (h : Keeps trees trees') (he : entryAt trees entries path = some e) :
    GitTrees.entryAt trees' entries path = some e := by
  induction path generalizing entries with
  | nil => cases he
  | cons name path ih =>
    by_cases hp : path = []
    · subst hp
      exact he
    · rw [entryAt_cons hp] at he ⊢
      have hne : subdir trees entries name ≠ [] := by
        intro hnil
        rw [hnil, entryAt_empty] at he
        cases he
      have hsame : subdir trees' entries name = subdir trees entries name := by
        unfold subdir children at *
        cases hn : named entries name with
        | none => rfl
        | some d =>
          rw [hn] at hne
          simp only [Option.map_some, Option.getD_some] at hne ⊢
          split_ifs at hne ⊢ with hk
          · cases ho : trees d.oid with
            | none => simp [ho] at hne
            | some l => rw [h d.oid l ho]
          · exact absurd rfl hne
      rw [hsame]
      exact ih he

end Lookup

/-! ## One entry replaced -/

/-- The entries with the one called `name` replaced by `child`, or dropped. -/
def rewrite (entries : List Entry) (name : Bytes) (child : Option Entry) : List Entry :=
  entries.filter (fun e => e.name ≠ name) ++ child.toList

section Rewrite

variable {trees : Trees} {entries entries' : List Entry} {name : Bytes} {path : List Bytes}
  {child file : Option Entry}

theorem named_rewrite (hc : ∀ e ∈ child, e.name = name) (other : Bytes) :
    named (rewrite entries name child) other =
      if other = name then child else named entries other := by
  rw [named, rewrite, List.find?_append]
  split_ifs with h
  · subst h
    have hnone : (entries.filter (fun e => e.name ≠ other)).find? (fun e => e.name = other) =
        none := by
      simp
    rw [hnone, Option.none_or]
    cases child with
    | none => rfl
    | some e => simp [hc e rfl]
  · have hsame : (entries.filter (fun e => e.name ≠ name)).find? (fun e => e.name = other) =
        named entries other := by
      rw [List.find?_filter, named]
      congr 1
      funext e
      by_cases he : e.name = other <;> simp [he, h]
    have hchild : child.toList.find? (fun e => e.name = other) = none := by
      cases child with
      | none => rfl
      | some e => simp [hc e rfl, Ne.symm h]
    rw [hsame, hchild, Option.or_none]

theorem Well.rewrite (hw : Well entries) (hc : ∀ e ∈ child, e.name = name)
    (hp : ∀ e ∈ child, e.Printable) : Well (rewrite entries name child) := by
  constructor
  · rw [GitTrees.rewrite, List.map_append, List.nodup_append]
    refine ⟨hw.1.sublist (List.filter_sublist.map _), ?_, ?_⟩
    · cases child <;> simp
    · rintro a ha b hb rfl
      obtain ⟨e, he, rfl⟩ := List.mem_map.mp ha
      obtain ⟨e', he', hname⟩ := List.mem_map.mp hb
      have hne := (List.mem_filter.mp he).2
      rw [hc e' (Option.mem_toList.mp he')] at hname
      simp [hname] at hne
  · intro e he
    rcases List.mem_append.mp he with he | he
    · exact hw.2 e (List.mem_of_mem_filter he)
    · exact hp e (Option.mem_toList.mp he)

/-- The entry of a directory that was written anew. -/
def dirEntry (oid : String) (name : Bytes) : Entry := ⟨"040000", "tree", oid, name⟩

/-- The directories along a path rewritten from the last one up: `Rebuilt trees file entries path
entries'` when `entries'` are what becomes of the directory that lists `entries`. -/
inductive Rebuilt (trees : Trees) (file : Option Entry) :
    List Entry → List Bytes → List Entry → Prop
  | last {entries : List Entry} {name : Bytes} (hname : ∀ e ∈ file, e.name = name) :
      Rebuilt trees file entries [name] (rewrite entries name file)
  | emptied {entries : List Entry} {name : Bytes} {path : List Bytes} (hpath : path ≠ [])
      (sub : Rebuilt trees file (subdir trees entries name) path []) :
      Rebuilt trees file entries (name :: path) (rewrite entries name none)
  | stored {entries inside : List Entry} {name : Bytes} {path : List Bytes} {oid : String}
      {l : Listing} (hpath : path ≠ [])
      (sub : Rebuilt trees file (subdir trees entries name) path inside) (hne : inside ≠ [])
      (hl : trees oid = some l) (hperm : l.entries.Perm inside) :
      Rebuilt trees file entries (name :: path) (rewrite entries name (some (dirEntry oid name)))

theorem subdir_rewrite_none : subdir trees (rewrite entries name none) name = [] := by
  rw [subdir, named_rewrite (by simp), if_pos rfl]
  rfl

theorem subdir_rewrite_dir {oid : String} {l : Listing} (hl : trees oid = some l) :
    subdir trees (rewrite entries name (some (dirEntry oid name))) name = l.entries := by
  rw [subdir, named_rewrite (by simp [dirEntry]), if_pos rfl]
  simp [children, dirEntry, hl]

theorem subdir_rewrite_other (hc : ∀ e ∈ child, e.name = name) {other : Bytes}
    (h : other ≠ name) :
    subdir trees (rewrite entries name child) other = subdir trees entries other := by
  rw [subdir, named_rewrite hc, if_neg h]
  rfl

/-- A path that leaves the rewritten entry aside leads to where it led before. -/
theorem entryAt_rewrite_other (hc : ∀ e ∈ child, e.name = name) {other : Bytes}
    (h : other ≠ name) :
    entryAt trees (rewrite entries name child) (other :: path) =
      entryAt trees entries (other :: path) := by
  by_cases hp : path = []
  · subst hp
    rw [entryAt_name, entryAt_name, named_rewrite hc, if_neg h]
  · rw [entryAt_cons hp, entryAt_cons hp, subdir_rewrite_other hc h]

/-- The path itself leads to the new file. -/
theorem Rebuilt.here (h : Rebuilt trees file entries path entries') :
    entryAt trees entries' path = file := by
  induction h with
  | last hname => rw [entryAt_name, named_rewrite hname, if_pos rfl]
  | emptied hpath _ ih =>
    rw [entryAt_cons hpath, subdir_rewrite_none]
    exact ih
  | stored hpath _ _ hl hperm ih =>
    rw [entryAt_cons hpath, subdir_rewrite_dir hl, entryAt_perm (by exact Listing.distinct _) hperm]
    exact ih

/-- Every path that is not on the way to the file leads to the entry that it led to before. -/
theorem Rebuilt.elsewhere (h : Rebuilt trees file entries path entries')
    (hfile : ∀ e ∈ file, e.kind ≠ "tree")
    (hleaf : ∀ e, entryAt trees entries path = some e → e.kind ≠ "tree") {q : List Bytes}
    (hq : ¬ q <+: path) : entryAt trees entries' q = entryAt trees entries q := by
  induction h generalizing q with
  | @last entries name hname =>
    cases q with
    | nil => rfl
    | cons other q =>
      by_cases ho : other = name
      · subst ho
        have hne : q ≠ [] := by
          rintro rfl
          exact hq (List.prefix_refl _)
        have hold : subdir trees entries other = [] := by
          rw [subdir]
          cases hn : named entries other with
          | none => rfl
          | some e => exact children_file (hleaf e hn)
        have hnew : subdir trees (rewrite entries other file) other = [] := by
          rw [subdir, named_rewrite hname, if_pos rfl]
          cases file with
          | none => rfl
          | some e => exact children_file (hfile e rfl)
        rw [entryAt_cons hne, entryAt_cons hne, hold, hnew]
      · exact entryAt_rewrite_other hname ho
  | @emptied entries name path hpath _ ih =>
    cases q with
    | nil => rfl
    | cons other q =>
      by_cases ho : other = name
      · subst ho
        have hne : q ≠ [] := by
          rintro rfl
          exact hq ⟨path, rfl⟩
        rw [entryAt_cons hpath] at hleaf
        rw [entryAt_cons hne, entryAt_cons hne, subdir_rewrite_none]
        exact ih hleaf (fun hpre => hq ((List.prefix_cons_inj other).mpr hpre))
      · exact entryAt_rewrite_other (by simp) ho
  | @stored entries inside name path oid l hpath _ _ hl hperm ih =>
    cases q with
    | nil => rfl
    | cons other q =>
      by_cases ho : other = name
      · subst ho
        have hne : q ≠ [] := by
          rintro rfl
          exact hq ⟨path, rfl⟩
        rw [entryAt_cons hpath] at hleaf
        rw [entryAt_cons hne, entryAt_cons hne, subdir_rewrite_dir hl,
          entryAt_perm l.distinct hperm]
        exact ih hleaf (fun hpre => hq ((List.prefix_cons_inj other).mpr hpre))
      · exact entryAt_rewrite_other (by simp [dirEntry]) ho

/-- A directory on the way to the file is still there only when something is left in it. -/
theorem Rebuilt.onTheWay (h : Rebuilt trees file entries path entries') {q : List Bytes}
    (hq : q <+: path) (hproper : q ≠ path) {e : Entry} (he : entryAt trees entries' q = some e) :
    e.kind = "tree" ∧ e.mode = "040000" ∧ children trees e ≠ [] := by
  induction h generalizing q with
  | @last entries name hname =>
    cases q with
    | nil => cases he
    | cons other q =>
      obtain ⟨rfl, hrest⟩ := List.cons_prefix_cons.mp hq
      rw [List.prefix_nil.mp hrest] at hproper
      exact absurd rfl hproper
  | @emptied entries name path hpath _ ih =>
    cases q with
    | nil => cases he
    | cons other q =>
      obtain ⟨rfl, hrest⟩ := List.cons_prefix_cons.mp hq
      by_cases hne : q = []
      · subst hne
        rw [entryAt_name, named_rewrite (by simp), if_pos rfl] at he
        cases he
      · rw [entryAt_cons hne, subdir_rewrite_none, entryAt_empty] at he
        cases he
  | @stored entries inside name path oid l hpath _ hin hl hperm ih =>
    cases q with
    | nil => cases he
    | cons other q =>
      obtain ⟨rfl, hrest⟩ := List.cons_prefix_cons.mp hq
      by_cases hne : q = []
      · subst hne
        rw [entryAt_name, named_rewrite (by simp [dirEntry]), if_pos rfl] at he
        cases he
        refine ⟨rfl, rfl, fun hnil => hin ?_⟩
        have hl' : children trees (dirEntry oid other) = l.entries := by
          simp [children, dirEntry, hl]
        rw [hl'] at hnil
        exact List.perm_nil.mp (hnil ▸ hperm.symm)
      · rw [entryAt_cons hne, subdir_rewrite_dir hl, entryAt_perm l.distinct hperm] at he
        exact ih hrest (fun heq => hproper (by rw [heq])) he

end Rewrite

end SrcControl.GitTrees
