import SrcControl.Core.Codec
import SrcControl.Vfs.TreeBuilder

/-!
# Flattening what was built

A walk only inserts, so the map it yields is the union of what its entries yield, and an
entry writes at its own path or below it. Flattening a built root therefore yields the
files and, under each carried path, what flattening the carried entry yields.
-/

namespace SrcControl.TreeEntries

open SlashPath

/-- The loop body of the walk, for one entry at `path`. -/
def walkEntry (store : Store) (n : Nat) (path : String) (e : TreeEntry) (out : FileMap) :
    Except Error FileMap :=
  match e.kind with
  | .blob => pure (out.insert path (fileEntry e))
  | .tree => walkEntriesWithPerms store n e.id path out

/-- Flattening the tree `id` with its paths under `pre` yields `m`. -/
def Flattens (store : Store) (id : ObjectId) (pre : String) (m : FileMap) : Prop :=
  ∃ n, walkEntriesWithPerms store n id pre ∅ = .ok m

/-- Flattening one entry that stands at `path` yields `m`. -/
def EntryFlattens (store : Store) (path : String) (e : TreeEntry) (m : FileMap) : Prop :=
  ∃ n, walkEntry store n path e ∅ = .ok m

variable {store : Store}

theorem walk_succ {id : ObjectId} {t : Tree} (ht : store.getTree id = .ok t) (n : Nat)
    (pre : String) (out : FileMap) : walkEntriesWithPerms store (n + 1) id pre out =
      t.entries.foldlM (fun out e => walkEntry store n (join pre e.name) e out) out := by
  rw [walkEntriesWithPerms, ht]
  rfl

/-! ## A walk only inserts -/

/-- `f` writes the same entries over any map, or always fails. -/
def Inserts (f : FileMap → Except Error FileMap) : Prop := ∀ out, f out = (f ∅).map (out ∪ ·)

theorem union_assoc (a b c : FileMap) : a ∪ b ∪ c = a ∪ (b ∪ c) := by
  apply Std.ExtTreeMap.ext_getElem?
  intro k
  simp only [Std.ExtTreeMap.getElem?_union, Option.or_assoc]

theorem union_empty (m : FileMap) : m ∪ ∅ = m := by
  apply Std.ExtTreeMap.ext_getElem?
  intro k
  simp [Std.ExtTreeMap.getElem?_union]

theorem empty_union (m : FileMap) : ∅ ∪ m = m := by
  apply Std.ExtTreeMap.ext_getElem?
  intro k
  simp [Std.ExtTreeMap.getElem?_union]

theorem map_union_assoc (a b : FileMap) (x : Except Error FileMap) :
    x.map (a ∪ b ∪ ·) = (x.map (b ∪ ·)).map (a ∪ ·) := by
  cases x with
  | error err => rfl
  | ok c => exact congrArg Except.ok (union_assoc a b c)

theorem inserts_insert (key : String) (fe : FileEntry) :
    Inserts (fun out => pure (out.insert key fe)) := by
  intro out
  refine congrArg Except.ok (Std.ExtTreeMap.ext_getElem? (fun k => ?_))
  rw [Std.ExtTreeMap.getElem?_union, BTreeMap.getElem?_insert, BTreeMap.getElem?_insert]
  split_ifs <;> simp

theorem Inserts.foldlM {f : TreeEntry → FileMap → Except Error FileMap} {es : List TreeEntry}
    (h : ∀ e ∈ es, Inserts (f e)) : Inserts (fun out => es.foldlM (fun out e => f e out) out) := by
  induction es with
  | nil =>
    intro out
    exact congrArg Except.ok (union_empty out).symm
  | cons e es ih =>
    intro out
    have hes := ih (fun e' he' => h e' (List.mem_cons_of_mem e he'))
    simp only [List.foldlM_cons]
    rw [h e List.mem_cons_self out]
    cases hm : f e ∅ with
    | error err => rfl
    | ok m =>
      change es.foldlM (fun out e => f e out) (out ∪ m) =
        (es.foldlM (fun out e => f e out) m).map (out ∪ ·)
      refine (hes (out ∪ m)).trans (Eq.trans ?_ (congrArg (Except.map (out ∪ ·)) (hes m).symm))
      exact map_union_assoc out m _

theorem inserts_walk (n : Nat) (id : ObjectId) (pre : String) :
    Inserts (walkEntriesWithPerms store n id pre) := by
  induction n generalizing id pre with
  | zero => exact fun _ => rfl
  | succ n ih =>
    cases ht : store.getTree id with
    | error err =>
      intro out
      rw [walkEntriesWithPerms, walkEntriesWithPerms, ht]
      rfl
    | ok t =>
      have hfold : Inserts (fun out =>
          t.entries.foldlM (fun out e => walkEntry store n (join pre e.name) e out) out) := by
        refine Inserts.foldlM (fun e _ => ?_)
        unfold walkEntry
        cases e.kind with
        | blob => exact inserts_insert _ _
        | tree => exact ih e.id _
      intro out
      rw [walk_succ ht, walk_succ ht]
      exact hfold out

theorem inserts_walkEntry (n : Nat) (path : String) (e : TreeEntry) :
    Inserts (walkEntry store n path e) := by
  unfold walkEntry
  cases e.kind with
  | blob => exact inserts_insert _ _
  | tree => exact inserts_walk n e.id path

/-- What an inserting step writes lies over the map it is given. -/
theorem Inserts.overlay {f : FileMap → Except Error FileMap} (h : Inserts f) {m : FileMap}
    (hm : f ∅ = .ok m) (out : FileMap) :
    ∃ out', f out = .ok out' ∧ Overlay (fun key fe => m[key]? = some fe) out out' := by
  refine ⟨out ∪ m, by rw [h out, hm]; rfl, fun key => ⟨fun fe hfe => ?_, fun hno => ?_⟩⟩
  · rw [Std.ExtTreeMap.getElem?_union, hfe]
    rfl
  · have hnone : m[key]? = none := by
      cases hk : m[key]? with
      | none => rfl
      | some fe => exact absurd hk (hno fe)
    rw [Std.ExtTreeMap.getElem?_union, hnone]
    rfl

/-! ## Fuel -/

theorem walk_mono {n : Nat} {id : ObjectId} {pre : String} {out m : FileMap}
    (h : walkEntriesWithPerms store n id pre out = .ok m) (k : Nat) :
    walkEntriesWithPerms store (n + k) id pre out = .ok m := by
  induction n generalizing id pre out m with
  | zero => cases h
  | succ n ih =>
    cases ht : store.getTree id with
    | error err =>
      rw [walkEntriesWithPerms, ht] at h
      cases h
    | ok t =>
      rw [Nat.add_right_comm, walk_succ ht]
      rw [walk_succ ht] at h
      -- each step that succeeded succeeds alike with more fuel
      generalize t.entries = es at h
      induction es generalizing out with
      | nil => exact h
      | cons e es ihes =>
        rw [List.foldlM_cons] at h ⊢
        obtain ⟨mid, hmid, h⟩ := Fallible.bind_ok h
        have hstep : walkEntry store (n + k) (join pre e.name) e out = .ok mid := by
          unfold walkEntry at hmid ⊢
          cases hk : e.kind with
          | blob => rwa [hk] at hmid
          | tree =>
            rw [hk] at hmid
            exact ih hmid
        rw [hstep]
        exact ihes h

theorem walkEntry_mono {n : Nat} {path : String} {e : TreeEntry} {out m : FileMap}
    (h : walkEntry store n path e out = .ok m) (k : Nat) :
    walkEntry store (n + k) path e out = .ok m := by
  unfold walkEntry at h ⊢
  cases hk : e.kind with
  | blob => rwa [hk] at h
  | tree =>
    rw [hk] at h
    exact walk_mono h k

theorem EntryFlattens.unique {path : String} {e : TreeEntry} {m m' : FileMap}
    (h : EntryFlattens store path e m) (h' : EntryFlattens store path e m') : m = m' := by
  obtain ⟨n, h⟩ := h
  obtain ⟨n', h'⟩ := h'
  have hn := walkEntry_mono h n'
  have hn' := walkEntry_mono h' n
  rw [Nat.add_comm, hn] at hn'
  exact Except.ok.inj hn'

theorem Flattens.unique {id : ObjectId} {pre : String} {m m' : FileMap}
    (h : Flattens store id pre m) (h' : Flattens store id pre m') : m = m' := by
  obtain ⟨n, h⟩ := h
  obtain ⟨n', h'⟩ := h'
  have hn := walk_mono h n'
  have hn' := walk_mono h' n
  rw [Nat.add_comm, hn] at hn'
  exact Except.ok.inj hn'

theorem entryFlattens_tree {path : String} {e : TreeEntry} (hk : e.kind = .tree) {m : FileMap} :
    EntryFlattens store path e m ↔ Flattens store e.id path m := by
  unfold EntryFlattens Flattens walkEntry
  rw [hk]

theorem entryFlattens_blob {path : String} {e : TreeEntry} (hk : e.kind = .blob) :
    EntryFlattens store path e ((∅ : FileMap).insert path (fileEntry e)) := by
  refine ⟨0, ?_⟩
  unfold walkEntry
  rw [hk]
  rfl

/-! ## Where an entry writes -/

/-- The path itself or something below it. -/
def AtOrBelow (path key : String) : Prop := key = path ∨ ∃ rest, key = path ++ "/" ++ rest

theorem AtOrBelow.join_eq {pre a b key : String} (ha : '/' ∉ a.toList) (hb : '/' ∉ b.toList)
    (h : AtOrBelow (join pre a) key) (h' : AtOrBelow (join pre b) key) : a = b := by
  have hpre : ∀ n, join pre n = (if pre = "" then "" else pre ++ "/") ++ n := by
    intro n
    rw [join]
    split_ifs <;> simp [String.append_assoc]
  have hcancel : ∀ {x y : String}, join pre a ++ x = join pre b ++ y → a ++ x = b ++ y := by
    intro x y he
    rw [hpre a, hpre b, String.append_assoc, String.append_assoc] at he
    exact append_left_cancel he
  rcases h with rfl | ⟨r, rfl⟩ <;> rcases h' with h' | ⟨r', h'⟩
  · have he := @hcancel "" "" (by simpa using h')
    simpa using he
  · have he := @hcancel "" ("/" ++ r') (by simpa [String.append_assoc] using h')
    exact absurd (by simpa [String.append_assoc] using he) (name_ne_slash ha (b := b) (y := r'))
  · have he := @hcancel ("/" ++ r) "" (by simpa [String.append_assoc] using h')
    exact absurd (by simpa [String.append_assoc] using he.symm)
      (name_ne_slash hb (b := a) (y := r))
  · have he := @hcancel ("/" ++ r) ("/" ++ r') (by simpa [String.append_assoc] using h')
    exact name_eq_of_slash ha hb (by simpa [String.append_assoc] using he)

/-- A walk with its paths under `pre` writes below `pre` only. -/
theorem walk_below {n : Nat} {id : ObjectId} {pre : String} {out m : FileMap} (hp : pre ≠ "")
    (h : walkEntriesWithPerms store n id pre out = .ok m) {key : String} {fe : FileEntry}
    (hk : m[key]? = some fe) : out[key]? = some fe ∨ ∃ rest, key = pre ++ "/" ++ rest := by
  induction n generalizing id pre out m with
  | zero => cases h
  | succ n ih =>
    cases ht : store.getTree id with
    | error err =>
      rw [walkEntriesWithPerms, ht] at h
      cases h
    | ok t =>
      rw [walk_succ ht] at h
      generalize t.entries = es at h
      induction es generalizing out with
      | nil =>
        cases h
        exact .inl hk
      | cons e es ihes =>
        rw [List.foldlM_cons] at h
        obtain ⟨mid, hmid, h⟩ := Fallible.bind_ok h
        refine (ihes h).elim (fun hmidk => ?_) .inr
        have hjoin : join pre e.name = pre ++ "/" ++ e.name := if_neg hp
        unfold walkEntry at hmid
        cases hkind : e.kind with
        | blob =>
          rw [hkind] at hmid
          cases hmid
          rw [BTreeMap.getElem?_insert] at hmidk
          split_ifs at hmidk with he
          · exact .inr ⟨e.name, he.symm.trans hjoin⟩
          · exact .inl hmidk
        | tree =>
          rw [hkind] at hmid
          have hne : join pre e.name ≠ "" := by
            intro he
            have hl := congrArg String.toList he
            rw [hjoin] at hl
            simp [String.toList_append] at hl
          refine (ih hne hmid hmidk).imp_right ?_
          rintro ⟨rest, rfl⟩
          exact ⟨e.name ++ "/" ++ rest, by rw [hjoin]; simp only [String.append_assoc]⟩

theorem EntryFlattens.atOrBelow {path : String} {e : TreeEntry} {m : FileMap} (hp : path ≠ "")
    (h : EntryFlattens store path e m) {key : String} {fe : FileEntry} (hk : m[key]? = some fe) :
    AtOrBelow path key := by
  cases hkind : e.kind with
  | blob =>
    obtain rfl := h.unique (entryFlattens_blob hkind)
    rw [BTreeMap.getElem?_insert] at hk
    split_ifs at hk with he
    · exact .inl he.symm
    · simp at hk
  | tree =>
    obtain ⟨n, hn⟩ := (entryFlattens_tree hkind).mp h
    rcases walk_below hp hn hk with h | h
    · simp at h
    · exact .inr h

/-! ## One node -/

/-- When every entry flattens, the node does, to what its entries yield. -/
theorem flattens_node {id : ObjectId} {t : Tree} {pre : String} (ht : store.getTree id = .ok t)
    (hs : t.Sorted) (hn : ∀ e ∈ t.entries, IsName e.name)
    (h : ∀ e ∈ t.entries, ∃ m, EntryFlattens store (join pre e.name) e m) :
    ∃ m : FileMap, Flattens store id pre m ∧ ∀ (key : String) (fe : FileEntry),
      m[key]? = some fe ↔
        ∃ e ∈ t.entries, ∃ m', EntryFlattens store (join pre e.name) e m' ∧
          m'[key]? = some fe := by
  obtain ⟨n, hbound⟩ : ∃ n, ∀ e ∈ t.entries, ∀ fuel,
      ∃ m, walkEntry store (fuel + n) (join pre e.name) e ∅ = .ok m := by
    refine Fallible.exists_common_bound
      (P := fun e fuel => ∃ m, walkEntry store fuel (join pre e.name) e ∅ = .ok m)
      (fun e he => ?_)
    obtain ⟨m, k, hk⟩ := h e he
    exact ⟨k, fun fuel => ⟨m, Nat.add_comm k fuel ▸ walkEntry_mono hk fuel⟩⟩
  have hwalk : ∀ e ∈ t.entries, ∃ m, walkEntry store n (join pre e.name) e ∅ = .ok m := by
    intro e he
    have := hbound e he 0
    rwa [Nat.zero_add] at this
  -- over any part of the entries, the fold writes what that part yields
  have hfold : ∀ es : List TreeEntry, (∀ e ∈ es, e ∈ t.entries) → ∀ out : FileMap,
      ∃ out', es.foldlM (fun out e => walkEntry store n (join pre e.name) e out) out =
          Except.ok out' ∧
        Overlay (fun key fe => ∃ e ∈ es, ∃ m', EntryFlattens store (join pre e.name) e m' ∧
          m'[key]? = some fe) out out' := by
    intro es
    induction es with
    | nil => exact fun _ out => ⟨out, rfl, Overlay.refl (by simp)⟩
    | cons e es ih =>
      intro hmem out
      have he := hmem e List.mem_cons_self
      obtain ⟨m, hm⟩ := hwalk e he
      obtain ⟨mid, hmid, hov⟩ := (inserts_walkEntry n (join pre e.name) e).overlay hm out
      obtain ⟨out', hout', hov'⟩ := ih (fun e' h' => hmem e' (List.mem_cons_of_mem e h')) mid
      refine ⟨out', ?_, (hov.trans hov' ?_).congr (fun key fe => ?_)⟩
      · rw [List.foldlM_cons, hmid]
        exact hout'
      · rintro key fe fe' hk ⟨e', he', m', hm', hk'⟩
        have hflat : EntryFlattens store (join pre e.name) e m := ⟨n, hm⟩
        have hname : e.name = e'.name :=
          (hflat.atOrBelow (join_ne_empty (hn e he)) hk).join_eq (hn e he).2
            (hn e' (hmem e' (List.mem_cons_of_mem e he'))).2
            (hm'.atOrBelow (join_ne_empty (hn e' (hmem e' (List.mem_cons_of_mem e he')))) hk')
        obtain rfl := eq_of_name_eq hs he (hmem e' (List.mem_cons_of_mem e he')) hname
        obtain rfl := hflat.unique hm'
        rw [hk] at hk'
        exact Option.some.inj hk'
      · constructor
        · rintro (hk | ⟨e', he', m', hm', hk⟩)
          · exact ⟨e, List.mem_cons_self, m, ⟨n, hm⟩, hk⟩
          · exact ⟨e', List.mem_cons_of_mem e he', m', hm', hk⟩
        · rintro ⟨e', he', m', hm', hk⟩
          rcases List.mem_cons.mp he' with rfl | he'
          · have hflat : EntryFlattens store (join pre e'.name) e' m := ⟨n, hm⟩
            exact .inl (hflat.unique hm' ▸ hk)
          · exact .inr ⟨e', he', m', hm', hk⟩
  obtain ⟨m, hm, hov⟩ := hfold t.entries (fun _ h => h) ∅
  exact ⟨m, ⟨n + 1, by rw [walk_succ ht]; exact hm⟩, fun key fe => hov.getElem?_eq_some_iff⟩

/-- When a node flattens, each of its entries does. -/
theorem Flattens.entry {id : ObjectId} {t : Tree} {pre : String} {m : FileMap}
    (h : Flattens store id pre m) (ht : store.getTree id = .ok t) {e : TreeEntry}
    (he : e ∈ t.entries) : ∃ m', EntryFlattens store (join pre e.name) e m' := by
  obtain ⟨n, h⟩ := h
  cases n with
  | zero => cases h
  | succ n =>
    rw [walk_succ ht] at h
    generalize (∅ : FileMap) = out at h
    generalize hes : t.entries = es at h he
    clear hes
    induction es generalizing out with
    | nil => cases he
    | cons e' es ih =>
      rw [List.foldlM_cons] at h
      obtain ⟨mid, hmid, h⟩ := Fallible.bind_ok h
      rcases List.mem_cons.mp he with rfl | he
      · rw [inserts_walkEntry n (join pre e.name) e out] at hmid
        cases hw : walkEntry store n (join pre e.name) e ∅ with
        | error err =>
          rw [hw] at hmid
          cases hmid
        | ok m' => exact ⟨m', n, hw⟩
      · exact ih mid h he

end SrcControl.TreeEntries

namespace SrcControl.TreeBuilder

open SlashPath TreeEntries Puts

variable {idOf : Object → ObjectId} {files : FileMap} {carried : BTreeMap String TreeEntry}

/-- What flattening the entries placed at or below `ds` yields. -/
def Yields (store : Store) (files : FileMap) (carried : BTreeMap String TreeEntry)
    (ds : List String) (key : String) (fe : FileEntry) : Prop :=
  ∃ es, (∀ c ∈ es, IsName c) ∧ ∃ e, Placed files carried (ds ++ es) e ∧
    ∃ m : FileMap, EntryFlattens store (ofNames (ds ++ es ++ [e.name])) e m ∧ m[key]? = some fe

/-- Every entry placed at or below `ds` flattens. -/
def AllFlatten (store : Store) (files : FileMap) (carried : BTreeMap String TreeEntry)
    (ds : List String) : Prop :=
  ∀ es, (∀ c ∈ es, IsName c) → ∀ e, Placed files carried (ds ++ es) e →
    ∃ m, EntryFlattens store (ofNames (ds ++ es ++ [e.name])) e m

theorem AllFlatten.child {store : Store} {ds : List String}
    (h : AllFlatten store files carried ds) {name : String} (hn : IsName name) :
    AllFlatten store files carried (ds ++ [name]) := by
  intro es hes e he
  rw [List.append_assoc ds [name] es] at he ⊢
  refine h (name :: es) (fun c hc => ?_) e he
  rcases List.mem_cons.mp hc with rfl | hc
  · exact hn
  · exact hes c hc

theorem AllFlatten.here {store : Store} {ds : List String}
    (h : AllFlatten store files carried ds) {e : TreeEntry} (he : Placed files carried ds e) :
    ∃ m, EntryFlattens store (ofNames (ds ++ [e.name])) e m := by
  have := h [] (by simp) e (by rwa [List.append_nil])
  rwa [List.append_nil] at this

/-- What a directory yields, by the first name below it. -/
theorem yields_iff {store : Store} {ds : List String} {key : String} {fe : FileEntry} :
    Yields store files carried ds key fe ↔
      (∃ e, Placed files carried ds e ∧ ∃ m : FileMap,
        EntryFlattens store (ofNames (ds ++ [e.name])) e m ∧ m[key]? = some fe) ∨
      ∃ name, IsName name ∧ Holds files carried (ds ++ [name]) ∧
        Yields store files carried (ds ++ [name]) key fe := by
  constructor
  · rintro ⟨es, hes, e, he, m, hm, hk⟩
    cases es with
    | nil =>
      rw [List.append_nil] at he hm
      exact .inl ⟨e, he, m, hm, hk⟩
    | cons name es =>
      have hsplit : ds ++ name :: es = ds ++ [name] ++ es := by simp
      have hes' : ∀ c ∈ es, IsName c := fun c hc => hes c (List.mem_cons_of_mem name hc)
      rw [hsplit] at he hm
      refine .inr ⟨name, hes name List.mem_cons_self, ⟨es ++ [e.name], by simp, ?_, ?_⟩,
        es, hes', e, he, m, hm, hk⟩
      · exact isName_append_singleton hes' he.name.1
      · rw [← List.append_assoc]
        exact he.name.2
  · rintro (⟨e, he, m, hm, hk⟩ | ⟨name, hn, -, es, hes, e, he, m, hm, hk⟩)
    · exact ⟨[], by simp, e, by rwa [List.append_nil], m, by rwa [List.append_nil], hk⟩
    · rw [List.append_assoc ds [name] es] at he hm
      refine ⟨name :: es, fun c hc => ?_, e, he, m, hm, hk⟩
      rcases List.mem_cons.mp hc with rfl | hc
      · exact hn
      · exact hes c hc

/-- A built directory whose placed entries flatten yields what they yield. -/
theorem Built.flattens {store : Store} {os : List Object}
    (hos : ∀ t, .tree t ∈ os → store.getTree (idOf (.tree t)) = .ok t) {n : Nat}
    {ds : List String} {id : ObjectId} (hb : Built idOf files carried os n ds id)
    (hplaced : AllFlatten store files carried ds) :
    ∃ m : FileMap, Flattens store id (ofNames ds) m ∧ ∀ (key : String) (fe : FileEntry),
      m[key]? = some fe ↔ Yields store files carried ds key fe := by
  induction n generalizing ds id with
  | zero => exact hb.elim
  | succ n ih =>
    obtain ⟨t, ht, rfl, hs, hall, hdone, hdirs⟩ := hb
    have hjoin : ∀ name, join (ofNames ds) name = ofNames (ds ++ [name]) :=
      fun name => (ofNames_append_singleton ds name).symm
    have hnames : ∀ e ∈ t.entries, IsName e.name := by
      intro e he
      rcases hall e he with h | ⟨hn, -⟩
      · exact h.name.1
      · exact hn
    have hflat : ∀ e ∈ t.entries, ∃ m, EntryFlattens store (join (ofNames ds) e.name) e m := by
      intro e he
      rw [hjoin]
      rcases hall e he with h | ⟨hn, -, hk, hb'⟩
      · exact hplaced.here h
      · obtain ⟨m, hm, -⟩ := ih hb' (hplaced.child hn)
        exact ⟨m, (entryFlattens_tree hk).mpr hm⟩
    obtain ⟨m, hm, hiff⟩ := flattens_node (hos t ht) hs hnames hflat
    refine ⟨m, hm, fun key fe => (hiff key fe).trans (Iff.trans ?_ yields_iff.symm)⟩
    constructor
    · rintro ⟨e, he, m', hm', hk'⟩
      rw [hjoin] at hm'
      rcases hall e he with h | ⟨hn, hh, hk, hb'⟩
      · exact .inl ⟨e, h, m', hm', hk'⟩
      · obtain ⟨m'', hm'', hiff''⟩ := ih hb' (hplaced.child hn)
        obtain rfl := hm'.unique ((entryFlattens_tree hk).mpr hm'')
        exact .inr ⟨e.name, hn, hh, (hiff'' key fe).mp hk'⟩
    · rintro (⟨e, he, m', hm', hk'⟩ | ⟨name, hn, hh, hy⟩)
      · exact ⟨e, hdone e he, m', by rwa [hjoin], hk'⟩
      · obtain ⟨e, he, rfl, hk, hb'⟩ := hdirs name hn hh
        obtain ⟨m', hm', hiff'⟩ := ih hb' (hplaced.child hn)
        exact ⟨e, he, m', by rw [hjoin]; exact (entryFlattens_tree hk).mpr hm',
          (hiff' key fe).mpr hy⟩

/-- Flattening a built directory reads every carried entry below it. -/
theorem Built.allFlatten {store : Store} {os : List Object}
    (hos : ∀ t, .tree t ∈ os → store.getTree (idOf (.tree t)) = .ok t) {n : Nat}
    {ds : List String} {id : ObjectId} (hb : Built idOf files carried os n ds id) {m : FileMap}
    (hm : Flattens store id (ofNames ds) m) : AllFlatten store files carried ds := by
  induction n generalizing ds id m with
  | zero => exact hb.elim
  | succ n ih =>
    obtain ⟨t, ht, rfl, -, -, hdone, hdirs⟩ := hb
    intro es hes e he
    cases es with
    | nil =>
      rw [List.append_nil] at he ⊢
      have := hm.entry (hos t ht) (hdone e he)
      rwa [← ofNames_append_singleton] at this
    | cons name es =>
      have hsplit : ds ++ name :: es = ds ++ [name] ++ es := by simp
      have hes' : ∀ c ∈ es, IsName c := fun c hc => hes c (List.mem_cons_of_mem name hc)
      rw [hsplit] at he ⊢
      have hh : Holds files carried (ds ++ [name]) := by
        refine ⟨es ++ [e.name], by simp, isName_append_singleton hes' he.name.1, ?_⟩
        rw [← List.append_assoc]
        exact he.name.2
      obtain ⟨d, hd, rfl, hk, hb'⟩ := hdirs name (hes name List.mem_cons_self) hh
      obtain ⟨m', hm'⟩ := hm.entry (hos t ht) hd
      rw [← ofNames_append_singleton] at hm'
      exact ih hb' ((entryFlattens_tree hk).mp hm') es hes' e he

/-! ## The root -/

theorem spelled_of_normal {V : Type} {m : BTreeMap String V}
    (h : ∀ p ∈ m.keys, normalize p = p ∧ p ≠ "") : Spelled m := by
  intro p v hv
  obtain ⟨hnorm, hne⟩ := h p ((BTreeMap.mem_keys_iff m p).mpr ⟨v, hv⟩)
  obtain ⟨cs, hcs, hp⟩ := normalize_names p
  rw [hnorm] at hp
  refine ⟨cs, ?_, fun c hc => (hcs c hc).1, hp⟩
  rintro rfl
  exact hne hp

theorem le_foldr_max {n : Nat} {ns : List Nat} (h : n ∈ ns) : n ≤ ns.foldr max 0 := by
  induction ns with
  | nil => cases h
  | cons k ns ih =>
    rw [List.foldr_cons]
    rcases List.mem_cons.mp h with rfl | h
    · exact Nat.le_max_left _ _
    · exact Nat.le_trans (ih h) (Nat.le_max_right _ _)

theorem length_lt_levels {es : List String} (hes : ∀ e ∈ es, IsName e)
    (hp : ofNames es ∈ files.keys ++ carried.keys) : es.length < levels files carried := by
  have h₁ := length_le_ofNames hes
  have h₂ := le_foldr_max (List.mem_map_of_mem (f := String.length) hp)
  unfold levels
  omega

theorem checked_iff : checkFileDirCollisions (files.keys ++ carried.keys) = .ok () ↔
    Clear files carried :=
  checkFileDirCollisions_ok_iff.trans ⟨fun h => ⟨h.1, h.2⟩, fun h => ⟨h.nodup, h.apart⟩⟩

theorem buildRoot_emits (hf : Spelled files) (hc : Spelled carried) (h : Clear files carried) :
    ∃ root os, Emits (buildRoot idOf files carried) root os ∧
      Built idOf files carried os (levels files carried) [] root := by
  have hlevels : 0 < levels files carried := Nat.succ_pos _
  obtain ⟨root, os, hemits, hb⟩ := @buildSubtreeInner_built [] idOf files carried h hf hc _ hlevels
    (by simp) (fun es hes hp => length_lt_levels hes hp)
  refine ⟨root, os, fun log => ?_, hb⟩
  have hrun := hemits log
  unfold buildRoot
  rw [checked_iff.mpr h]
  exact hrun

/-- A path that collides stops the build before anything is put. -/
theorem buildRoot_error (h : ¬ Clear files carried) (log : List Object) :
    ∃ err, (buildRoot idOf files carried).run log = (.error err, log) := by
  cases hcheck : checkFileDirCollisions (files.keys ++ carried.keys) with
  | ok u => exact absurd (checked_iff.mp hcheck) h
  | error err =>
    refine ⟨err, ?_⟩
    unfold buildRoot
    rw [hcheck]
    rfl

/-- The placed entries are the files and the carried entries. -/
theorem yields_root_iff {store : Store} (hf : Spelled files) (hc : Spelled carried) {key : String}
    {fe : FileEntry} : Yields store files carried [] key fe ↔
      files[key]? = some fe ∨ ∃ p e, ∃ m : FileMap, carried[p]? = some e ∧
        EntryFlattens store p e m ∧ m[key]? = some fe := by
  constructor
  · rintro ⟨es, -, e, he, m, hm, hk⟩
    rw [List.nil_append] at he hm
    cases he with
    | file hn h =>
      obtain rfl := hm.unique (entryFlattens_blob rfl)
      rw [BTreeMap.getElem?_insert] at hk
      split_ifs at hk with hkey
      · cases hk
        exact .inl (hkey ▸ h)
      · simp at hk
    | carried hn h => exact .inr ⟨_, _, m, h, hm, hk⟩
  · have hsplit : ∀ {cs : List String}, cs ≠ [] → (∀ c ∈ cs, IsName c) →
        ∃ es name, cs = es ++ [name] ∧ IsName name ∧ ∀ c ∈ es, IsName c := by
      intro cs hcs hn
      rcases List.eq_nil_or_concat cs with rfl | ⟨es, name, rfl⟩
      · exact absurd rfl hcs
      · rw [List.concat_eq_append] at hn ⊢
        exact ⟨es, name, rfl, hn name (by simp), fun c hc => hn c (by simp [hc])⟩
    rintro (h | ⟨p, e, m, h, hm, hk⟩)
    · obtain ⟨cs, hcs, hn, rfl⟩ := hf key fe h
      obtain ⟨es, name, rfl, hname, hes⟩ := hsplit hcs hn
      refine ⟨es, hes, blobEntry name fe, .file hname h, _, entryFlattens_blob rfl, ?_⟩
      rw [BTreeMap.getElem?_insert]
      exact if_pos rfl
    · obtain ⟨cs, hcs, hn, rfl⟩ := hc p e h
      obtain ⟨es, name, rfl, hname, hes⟩ := hsplit hcs hn
      exact ⟨es, hes, _, .carried hname h, m, hm, hk⟩

theorem allFlatten_root_iff {store : Store} (hc : Spelled carried) :
    AllFlatten store files carried [] ↔
      ∀ p e, carried[p]? = some e → ∃ m, EntryFlattens store p e m := by
  constructor
  · intro h p e he
    obtain ⟨cs, hcs, hn, rfl⟩ := hc p e he
    rcases List.eq_nil_or_concat cs with rfl | ⟨es, name, rfl⟩
    · exact absurd rfl hcs
    · rw [List.concat_eq_append] at hn he ⊢
      exact h es (fun c hc => hn c (by simp [hc])) _ (.carried (hn name (by simp)) he)
  · intro h es _ e he
    cases he with
    | file hn hfe => exact ⟨_, entryFlattens_blob rfl⟩
    | carried hn hce =>
      obtain ⟨m, hm⟩ := h _ _ hce
      exact ⟨m, hm⟩

/-- Building and flattening are inverse, and a collision puts nothing. -/
theorem buildRoot_flattens (idOf : Object → ObjectId) {files : FileMap}
    {carried : BTreeMap String TreeEntry}
    (hnorm : ∀ p ∈ files.keys ++ carried.keys, normalize p = p ∧ p ≠ "") :
    (Clear files carried → ∃ root os, (buildRoot idOf files carried).run [] = (.ok root, os) ∧
      ∀ store, Unambiguous idOf store os →
        ((∃ m, Flattens (store.putAll idOf os) root "" m) ↔
          ∀ p e, carried[p]? = some e → ∃ m, EntryFlattens (store.putAll idOf os) p e m) ∧
        ∀ m : FileMap, Flattens (store.putAll idOf os) root "" m →
          ∀ (key : String) (fe : FileEntry), m[key]? = some fe ↔
            files[key]? = some fe ∨ ∃ p e, ∃ m' : FileMap, carried[p]? = some e ∧
              EntryFlattens (store.putAll idOf os) p e m' ∧ m'[key]? = some fe) ∧
    (¬ Clear files carried → ∃ err, (buildRoot idOf files carried).run [] = (.error err, [])) := by
  have hf : Spelled files :=
    spelled_of_normal (fun p hp => hnorm p (List.mem_append_left _ hp))
  have hc : Spelled carried :=
    spelled_of_normal (fun p hp => hnorm p (List.mem_append_right _ hp))
  refine ⟨fun h => ?_, fun h => buildRoot_error h []⟩
  obtain ⟨root, os, hemits, hb⟩ := buildRoot_emits hf hc h
  refine ⟨root, os, hemits [], fun store hu => ?_⟩
  have hos : ∀ t, .tree t ∈ os →
      (store.putAll idOf os).getTree (idOf (.tree t)) = .ok t := fun t ht =>
    Store.getTree_eq_ok_iff.mpr (Store.putAll_get hu ht)
  refine ⟨?_, fun m hm key fe => ?_⟩
  · rw [← @allFlatten_root_iff files carried _ hc]
    constructor
    · rintro ⟨m, hm⟩
      exact hb.allFlatten hos hm
    · intro hall
      obtain ⟨m, hm, -⟩ := hb.flattens hos hall
      exact ⟨m, hm⟩
  · obtain ⟨m', hm', hiff⟩ := hb.flattens hos (hb.allFlatten hos hm)
    obtain rfl := hm.unique hm'
    rw [hiff, yields_root_iff hf hc]

/-- A file and a carried entry in one directory. -/
def testFiles : FileMap := (∅ : FileMap).insert "docs/a" ⟨testId 1, .FILE, PROTECTED⟩

def testCarried : BTreeMap String TreeEntry :=
  (∅ : BTreeMap String TreeEntry).insert "docs/b" ⟨"", .blob, testId 2, .EXEC, RANDOMIZED⟩

/-- The encoding itself as the address. -/
def plainId : Object → ObjectId := Object.id id

theorem buildRoot_flattens_docs : ∃ root os,
    (buildRoot plainId testFiles testCarried).run [] = (.ok root, os) ∧
      ∀ store, Unambiguous plainId store os → ∃ m : FileMap,
        Flattens (store.putAll plainId os) root "" m ∧
          m["docs/a"]? = some ⟨testId 1, .FILE, PROTECTED⟩ ∧
          m["docs/b"]? = some ⟨testId 2, .EXEC, RANDOMIZED⟩ := by
  have hpaths : testFiles.keys ++ testCarried.keys = ["docs/a", "docs/b"] := by decide
  have hnorm : ∀ p ∈ testFiles.keys ++ testCarried.keys, normalize p = p ∧ p ≠ "" := by
    intro p hp
    rw [hpaths] at hp
    rcases List.mem_pair.mp hp with rfl | rfl
    · exact ⟨@normalize_ofNames ["docs", "a"] (by decide), by decide⟩
    · exact ⟨@normalize_ofNames ["docs", "b"] (by decide), by decide⟩
  have hclear : Clear testFiles testCarried := by
    refine ⟨by rw [hpaths]; decide, ?_⟩
    rw [hpaths]
    decide
  obtain ⟨root, os, hrun, hspec⟩ := (buildRoot_flattens plainId hnorm).1 hclear
  refine ⟨root, os, hrun, fun store hu => ?_⟩
  obtain ⟨hex, hiff⟩ := hspec store hu
  have hblob : ∀ (p : String) (e : TreeEntry), testCarried[p]? = some e → e.kind = .blob := by
    intro p e he
    unfold testCarried at he
    rw [BTreeMap.getElem?_insert] at he
    split_ifs at he
    · cases he
      rfl
    · simp at he
  obtain ⟨m, hm⟩ := hex.mpr (fun p e he => ⟨_, entryFlattens_blob (hblob p e he)⟩)
  refine ⟨m, hm, (hiff m hm _ _).mpr (.inl (by decide)), (hiff m hm _ _).mpr (.inr ?_)⟩
  refine ⟨"docs/b", ⟨"", .blob, testId 2, .EXEC, RANDOMIZED⟩, _, by decide,
    entryFlattens_blob rfl, ?_⟩
  decide

end SrcControl.TreeBuilder
