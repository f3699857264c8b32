import Mathlib

/-!
# Slash-separated paths

Strings read as paths. A component is a non-empty name without the separator;
joining components with `/` is injective on lists of components, and one joined
path lies at or below another exactly when the component lists are prefixes.
-/

namespace SrcControl.SlashPath

/-- A single path component. -/
def IsName (name : String) : Prop := name ≠ "" ∧ '/' ∉ name.toList

instance (name : String) : Decidable (IsName name) :=
  inferInstanceAs (Decidable (name ≠ "" ∧ '/' ∉ name.toList))

/-- Append one component; the empty path is the root. -/
def join (path name : String) : String :=
  if path = "" then name else path ++ "/" ++ name

/-- The path spelled by a list of components. -/
def ofNames (cs : List String) : String :=
  cs.foldl join ""

/-- The parts of `path` before each separator: its proper ancestors. -/
def cuts : List Char → List (List Char)
  | [] => []
  | c :: cs => (if c = '/' then [[]] else []) ++ (cuts cs).map (c :: ·)

def ancestors (path : String) : List String := (cuts path.toList).map String.ofList

/-- `path.starts_with(head)`. -/
def startsWith (path head : String) : Bool := head.toList.isPrefixOf path.toList

theorem startsWith_iff {path head : String} :
    startsWith path head = true ↔ ∃ rest : String, path = head ++ rest := by
  rw [startsWith, List.isPrefixOf_iff_prefix]
  constructor
  · rintro ⟨t, ht⟩
    refine ⟨String.ofList t, String.ext ?_⟩
    rw [String.toList_append, String.toList_ofList, ht]
  · rintro ⟨rest, rfl⟩
    exact ⟨rest.toList, String.toList_append.symm⟩

theorem mem_cuts {xs a : List Char} : a ∈ cuts xs ↔ ∃ b, xs = a ++ '/' :: b := by
  induction xs generalizing a with
  | nil => simp [cuts]
  | cons c cs ih =>
    simp only [cuts, List.mem_append, List.mem_map]
    constructor
    · rintro (h | ⟨a', ha', rfl⟩)
      · split at h
        · next hc =>
          simp only [List.mem_singleton] at h
          exact ⟨cs, by rw [h, hc]; rfl⟩
        · simp at h
      · obtain ⟨b, hb⟩ := ih.mp ha'
        exact ⟨b, by rw [hb]; rfl⟩
    · rintro ⟨b, hb⟩
      cases a with
      | nil =>
        left
        simp only [List.nil_append, List.cons.injEq] at hb
        simp [hb.1]
      | cons d ds =>
        right
        simp only [List.cons_append, List.cons.injEq] at hb
        exact ⟨ds, ih.mpr ⟨b, hb.2⟩, by rw [hb.1]⟩

/-- The proper ancestors of a path are what precedes each of its separators. -/
theorem mem_ancestors {path a : String} :
    a ∈ ancestors path ↔ ∃ rest : String, path = a ++ "/" ++ rest := by
  simp only [ancestors, List.mem_map]
  constructor
  · rintro ⟨a', ha', rfl⟩
    obtain ⟨b, hb⟩ := mem_cuts.mp ha'
    refine ⟨String.ofList b, String.ext ?_⟩
    simp only [String.toList_append, String.toList_ofList, hb]
    simp
  · rintro ⟨rest, rfl⟩
    refine ⟨a.toList, mem_cuts.mpr ⟨rest.toList, ?_⟩, String.ofList_toList⟩
    simp [String.toList_append]

/-- `path.split('/')`. -/
def split (path : String) : List String := (path.toList.splitOn '/').map String.ofList

theorem split_ne_nil (path : String) : split path ≠ [] := by
  simp [split]

theorem split_slash (p q : String) : split (p ++ "/" ++ q) = split p ++ split q := by
  have h : (p ++ "/" ++ q).toList = p.toList ++ '/' :: q.toList := by
    simp [String.toList_append]
  rw [split, h, List.splitOn_append_cons_self, List.map_append]
  rfl

theorem split_name {name : String} (h : '/' ∉ name.toList) : split name = [name] := by
  rw [split, List.splitOn_eq_singleton h, List.map_singleton, String.ofList_toList]

theorem split_join {path name : String} (hp : path ≠ "") (h : '/' ∉ name.toList) :
    split (join path name) = split path ++ [name] := by
  rw [join, if_neg hp, split_slash, split_name h]

theorem join_ne_empty {path name : String} (h : IsName name) : join path name ≠ "" := by
  unfold join
  split_ifs with hp
  · exact h.1
  · intro he
    have hl := congrArg String.toList he
    simp [String.toList_append] at hl

@[simp] theorem ofNames_nil : ofNames [] = "" := rfl

theorem ofNames_append_singleton (cs : List String) (name : String) :
    ofNames (cs ++ [name]) = join (ofNames cs) name := by
  simp [ofNames, List.foldl_append]

theorem ofNames_singleton (name : String) : ofNames [name] = name := rfl

theorem ofNames_ne_empty {cs : List String} (hn : ∀ c ∈ cs, IsName c) (hc : cs ≠ []) :
    ofNames cs ≠ "" := by
  obtain ⟨ds, d, rfl⟩ := List.eq_nil_or_concat cs |>.resolve_left hc
  rw [List.concat_eq_append] at hn ⊢
  rw [ofNames_append_singleton]
  exact join_ne_empty (hn d (by simp))

theorem ofNames_eq_empty {cs : List String} (hn : ∀ c ∈ cs, IsName c) :
    ofNames cs = "" ↔ cs = [] :=
  ⟨fun h => by_contra fun hc => ofNames_ne_empty hn hc h, fun h => h ▸ rfl⟩

theorem split_ofNames {cs : List String} (hn : ∀ c ∈ cs, IsName c) (hc : cs ≠ []) :
    split (ofNames cs) = cs := by
  induction cs using List.reverseRecOn with
  | nil => exact absurd rfl hc
  | append_singleton ds d ih =>
    have hd : '/' ∉ d.toList := (hn d (by simp)).2
    have hds : ∀ c ∈ ds, IsName c := fun c h => hn c (by simp [h])
    rw [ofNames_append_singleton]
    by_cases he : ds = []
    · subst he
      exact split_name hd
    · rw [split_join (ofNames_ne_empty hds he) hd, ih hds he]

theorem ofNames_inj {cs ds : List String} (hc : ∀ c ∈ cs, IsName c) (hd : ∀ d ∈ ds, IsName d) :
    ofNames cs = ofNames ds ↔ cs = ds := by
  refine ⟨fun h => ?_, fun h => h ▸ rfl⟩
  by_cases hcs : cs = []
  · subst hcs
    exact ((ofNames_eq_empty hd).mp h.symm).symm
  by_cases hds : ds = []
  · subst hds
    exact (ofNames_eq_empty hc).mp h
  rw [← split_ofNames hc hcs, h, split_ofNames hd hds]

theorem ofNames_append {cs ds : List String} (hc : ∀ c ∈ cs, IsName c) (hcs : cs ≠ [])
    (hd : ∀ d ∈ ds, IsName d) (hds : ds ≠ []) :
    ofNames (cs ++ ds) = ofNames cs ++ "/" ++ ofNames ds := by
  induction ds using List.reverseRecOn with
  | nil => exact absurd rfl hds
  | append_singleton es e ih =>
    have hes : ∀ d ∈ es, IsName d := fun d h => hd d (by simp [h])
    rw [← List.append_assoc, ofNames_append_singleton, ofNames_append_singleton]
    by_cases he : es = []
    · subst he
      rw [List.append_nil, join, if_neg (ofNames_ne_empty hc hcs), ofNames_nil, join, if_pos rfl]
    · rw [ih hes he, join, if_neg, join, if_neg (ofNames_ne_empty hes he)]
      · simp only [String.append_assoc]
      · intro h
        have hl := congrArg String.toList h
        simp [String.toList_append] at hl

/-- The ancestors of a path are spelled by the proper prefixes of its components. -/
theorem ofNames_mem_ancestors {cs ds : List String} (hc : ∀ c ∈ cs, IsName c)
    (hd : ∀ d ∈ ds, IsName d) (hds : ds ≠ []) :
    ofNames ds ∈ ancestors (ofNames cs) ↔ ∃ es, es ≠ [] ∧ cs = ds ++ es := by
  rw [mem_ancestors]
  constructor
  · rintro ⟨rest, h⟩
    have hcs : cs ≠ [] := by
      rintro rfl
      have hl := congrArg String.toList h
      simp [String.toList_append] at hl
    refine ⟨split rest, split_ne_nil rest, ?_⟩
    rw [← split_ofNames hc hcs, h, split_slash, split_ofNames hd hds]
  · rintro ⟨es, hes, rfl⟩
    have hne : ∀ e ∈ es, IsName e := fun e h => hc e (by simp [h])
    exact ⟨ofNames es, ofNames_append hd hds hne hes⟩

/-! ## Below a directory -/

/-- `path.strip_prefix(head)`. -/
def stripPrefix (path head : String) : Option String :=
  if startsWith path head then some (String.ofList (path.toList.drop head.toList.length)) else none

theorem stripPrefix_eq_some_iff {path head rest : String} :
    stripPrefix path head = some rest ↔ path = head ++ rest := by
  unfold stripPrefix
  constructor
  · intro h
    split_ifs at h with hs
    obtain ⟨tail, rfl⟩ := startsWith_iff.mp hs
    cases h
    rw [String.toList_append, List.drop_left, String.ofList_toList]
  · rintro rfl
    rw [if_pos (startsWith_iff.mpr ⟨rest, rfl⟩), String.toList_append, List.drop_left,
      String.ofList_toList]

/-- `s.split_once('/')`. -/
def splitOnce (s : String) : Option (String × String) :=
  match s.toList.dropWhile (· ≠ '/') with
  | [] => none
  | _ :: rest => some (String.ofList (s.toList.takeWhile (· ≠ '/')), String.ofList rest)

theorem splitOnce_name {name : String} (h : '/' ∉ name.toList) : splitOnce name = none := by
  have hall : name.toList.dropWhile (· ≠ '/') = [] := by
    rw [List.dropWhile_eq_nil_iff]
    intro c hc
    simpa using fun he : c = '/' => h (he ▸ hc)
  rw [splitOnce, hall]

theorem splitOnce_slash {name : String} (h : '/' ∉ name.toList) (rest : String) :
    splitOnce (name ++ "/" ++ rest) = some (name, rest) := by
  have hall : ∀ c ∈ name.toList, decide (c ≠ '/') = true := by
    intro c hc
    simpa using fun he : c = '/' => h (he ▸ hc)
  have hlist : (name ++ "/" ++ rest).toList = name.toList ++ '/' :: rest.toList := by
    simp [String.toList_append]
  unfold splitOnce
  rw [hlist, List.dropWhile_append_of_pos hall, List.takeWhile_append_of_pos hall]
  simp

/-- Two names followed by a slash agree when the texts do. -/
theorem name_eq_of_slash {a b x y : String} (ha : '/' ∉ a.toList) (hb : '/' ∉ b.toList)
    (h : a ++ "/" ++ x = b ++ "/" ++ y) : a = b := by
  have hs := splitOnce_slash ha x
  rw [h, splitOnce_slash hb y] at hs
  cases hs
  rfl

/-- Two readings of one path as a directory and the rest: one directory is at or above the
other. -/
theorem slash_cases {a b x y : String} (h : a ++ "/" ++ x = b ++ "/" ++ y) :
    a = b ∨ (∃ t, b = a ++ "/" ++ t) ∨ ∃ t, a = b ++ "/" ++ t := by
  have hl : a.toList ++ '/' :: x.toList = b.toList ++ '/' :: y.toList := by
    simpa using congrArg String.toList h
  have hspell : ∀ {s : String} {u v : List Char}, s.toList = u ++ '/' :: v →
      s = String.ofList u ++ "/" ++ String.ofList v := by
    intro s u v hs
    refine String.ext ?_
    rw [hs]
    simp
  rcases List.append_eq_append_iff.mp hl with ⟨t, hb, ht⟩ | ⟨t, ha, ht⟩
  · cases t with
    | nil => exact .inl (String.ext (by simpa using hb.symm))
    | cons c t =>
      obtain ⟨rfl, -⟩ := List.cons_eq_cons.mp ht
      have hb' := hspell hb
      rw [String.ofList_toList] at hb'
      exact .inr (.inl ⟨_, hb'⟩)
  · cases t with
    | nil => exact .inl (String.ext (by simpa using ha))
    | cons c t =>
      obtain ⟨rfl, -⟩ := List.cons_eq_cons.mp ht
      have ha' := hspell ha
      rw [String.ofList_toList] at ha'
      exact .inr (.inr ⟨_, ha'⟩)

theorem name_ne_slash {a b y : String} (ha : '/' ∉ a.toList) : a ≠ b ++ "/" ++ y := by
  rintro rfl
  exact ha (by simp [String.toList_append])

/-- The prefix that the paths below the directory `ds` have. -/
def dirPrefix (ds : List String) : String := if ds = [] then "" else ofNames ds ++ "/"

theorem ofNames_append_eq {ds es : List String} (hd : ∀ d ∈ ds, IsName d)
    (he : ∀ e ∈ es, IsName e) (hes : es ≠ []) : ofNames (ds ++ es) = dirPrefix ds ++ ofNames es := by
  unfold dirPrefix
  by_cases h : ds = []
  · simp [h]
  · rw [if_neg h, ofNames_append hd h he hes]

theorem dirPrefix_append_singleton {ds : List String} (hd : ∀ d ∈ ds, IsName d) {d : String}
    (hn : IsName d) : dirPrefix (ds ++ [d]) = dirPrefix ds ++ d ++ "/" := by
  have hne : ∀ e ∈ [d], IsName e := fun e he => List.mem_singleton.mp he ▸ hn
  rw [dirPrefix, if_neg (by simp), ofNames_append_eq hd hne (by simp), ofNames_singleton]

theorem append_left_cancel {a b c : String} (h : a ++ b = a ++ c) : b = c := by
  have hl := congrArg String.toList h
  rw [String.toList_append, String.toList_append] at hl
  exact String.ext (List.append_cancel_left hl)

/-- A path has the prefix of a directory exactly when it lies below it. -/
theorem dirPrefix_append_iff {cs ds : List String} (hc : ∀ c ∈ cs, IsName c) (hcs : cs ≠ [])
    (hd : ∀ d ∈ ds, IsName d) {rest : String} :
    ofNames cs = dirPrefix ds ++ rest ↔ ∃ es, es ≠ [] ∧ cs = ds ++ es ∧ rest = ofNames es := by
  constructor
  · intro h
    by_cases hds : ds = []
    · subst hds
      exact ⟨cs, hcs, rfl, by simpa [dirPrefix] using h.symm⟩
    · have hdir : dirPrefix ds = ofNames ds ++ "/" := if_neg hds
      rw [hdir] at h
      obtain ⟨es, hes, rfl⟩ := (ofNames_mem_ancestors hc hd hds).mp (mem_ancestors.mpr ⟨rest, h⟩)
      have he : ∀ e ∈ es, IsName e := fun e he => hc e (List.mem_append_right ds he)
      rw [ofNames_append hd hds he hes] at h
      exact ⟨es, hes, rfl, (append_left_cancel h).symm⟩
  · rintro ⟨es, hes, rfl, rfl⟩
    exact ofNames_append_eq hd (fun e he => hc e (List.mem_append_right ds he)) hes

theorem length_le_ofNames {cs : List String} (hc : ∀ c ∈ cs, IsName c) :
    cs.length ≤ (ofNames cs).length := by
  induction cs using List.reverseRecOn with
  | nil => simp
  | append_singleton ds d ih =>
    have hd : IsName d := hc d (by simp)
    have hpos : 0 < d.length := by
      rcases Nat.eq_zero_or_pos d.length with h | h
      · exact absurd (String.length_eq_zero_iff.mp h) hd.1
      · exact h
    have hle := ih (fun c h => hc c (List.mem_append_left [d] h))
    rw [ofNames_append_singleton, join]
    split_ifs with he
    · have hnil := (ofNames_eq_empty (fun c h => hc c (List.mem_append_left [d] h))).mp he
      subst hnil
      simpa using Nat.succ_le_of_lt hpos
    · simp only [List.length_append, List.length_singleton, String.length_append]
      omega

/-! ## Normal paths -/

/-- `path.trim_start_matches("./")`, on the characters. -/
def trimDotSlash : List Char → List Char
  | '.' :: '/' :: rest => trimDotSlash rest
  | cs => cs

/-- Drop empty and `.` components. -/
def normalize (path : String) : String :=
  ofNames ((split (String.ofList (trimDotSlash path.toList))).filter (fun c => c ≠ "" ∧ c ≠ "."))

theorem not_mem_splitOn {α : Type} [BEq α] [LawfulBEq α] {a : α} {xs ys : List α}
    (h : ys ∈ xs.splitOn a) : a ∉ ys := by
  induction xs generalizing ys with
  | nil => simp_all
  | cons x xs ih =>
    rw [List.splitOn_cons_eq_if_modifyHead] at h
    split_ifs at h with hx
    · rcases List.mem_cons.mp h with rfl | h
      · simp
      · exact ih h
    · cases hs : xs.splitOn a with
      | nil => simp [hs] at h
      | cons zs rest =>
        rw [hs, List.modifyHead_cons] at h
        rcases List.mem_cons.mp h with rfl | h
        · have hz := ih (hs ▸ List.mem_cons_self)
          simp only [List.mem_cons, not_or]
          exact ⟨fun he => hx (by simp [he]), hz⟩
        · exact ih (hs ▸ List.mem_cons_of_mem zs h)

theorem isName_of_mem_split {path c : String} (h : c ∈ split path) (hc : c ≠ "") : IsName c := by
  obtain ⟨cs, hcs, rfl⟩ := List.mem_map.mp h
  exact ⟨hc, by rw [String.toList_ofList]; exact not_mem_splitOn hcs⟩

theorem normalize_names (path : String) :
    ∃ cs, (∀ c ∈ cs, IsName c ∧ c ≠ ".") ∧ normalize path = ofNames cs := by
  refine ⟨_, fun c hc => ?_, rfl⟩
  obtain ⟨hc, hne⟩ := List.mem_filter.mp hc
  have hne : c ≠ "" ∧ c ≠ "." := by simpa using hne
  exact ⟨isName_of_mem_split hc hne.1, hne.2⟩

theorem trimDotSlash_ofNames {cs : List String} (hc : ∀ c ∈ cs, IsName c ∧ c ≠ ".") :
    trimDotSlash (ofNames cs).toList = (ofNames cs).toList := by
  cases cs with
  | nil => rfl
  | cons d ds =>
    have hd := hc d List.mem_cons_self
    have hds : ∀ e ∈ ds, IsName e := fun e he => (hc e (List.mem_cons_of_mem d he)).1
    have hstart : ∀ rest, (ofNames (d :: ds)).toList ≠ '.' :: '/' :: rest := by
      intro rest h
      have hs : ofNames (d :: ds) = "." ++ "/" ++ String.ofList rest := by
        apply String.ext
        simpa [String.toList_append] using h
      by_cases hnil : ds = []
      · subst hnil
        rw [ofNames_singleton] at hs
        exact name_ne_slash hd.1.2 hs
      · have hone : ∀ e ∈ [d], IsName e := fun e he => List.mem_singleton.mp he ▸ hd.1
        have happ := ofNames_append hone (by simp) hds hnil
        rw [ofNames_singleton] at happ
        exact hd.2 (name_eq_of_slash hd.1.2 (by decide) (happ.symm.trans hs))
    generalize (ofNames (d :: ds)).toList = xs at hstart
    match xs with
    | [] => rfl
    | [c] => simp [trimDotSlash]
    | c :: c' :: rest =>
      rw [trimDotSlash]
      intro rest' h
      exact hstart rest' h

/-- What `normalize` yields is left as it is. -/
theorem normalize_ofNames {cs : List String} (hc : ∀ c ∈ cs, IsName c ∧ c ≠ ".") :
    normalize (ofNames cs) = ofNames cs := by
  have hn : ∀ c ∈ cs, IsName c := fun c h => (hc c h).1
  unfold normalize
  rw [trimDotSlash_ofNames hc, String.ofList_toList]
  by_cases h : cs = []
  · subst h
    rfl
  · rw [split_ofNames hn h, List.filter_eq_self.mpr]
    intro c hmem
    simpa using ⟨(hc c hmem).1.1, (hc c hmem).2⟩

end SrcControl.SlashPath
