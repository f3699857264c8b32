import SrcControl.Vfs.Worktree

/-!
# What a commit keeps

A commit rebuilds the base from its paths, blob ids and modes: the perms bits are not among
what is walked. Apart from them the new snapshot holds the base with the overlay over it,
and a fork of it lists and reads what the worktree did.
-/

namespace SrcControl.Vfs

open SlashPath Puts TreeBuilder TreeEntries Transport

variable {store : Store} {idOf : Object → ObjectId}

/-! ## The base as commit walks it -/

/-- An entry without its perms. -/
def plain (fe : FileEntry) : ObjectId × FileMode := (fe.id, fe.mode)

def triple (f : String × FileEntry) : String × ObjectId × FileMode := (f.1, plain f.2)

/-- `walk` pushes what the walk with perms inserts. -/
theorem walk_ok {n : Nat} {id : ObjectId} {pre : String}
    {out out' : List (String × ObjectId × FileMode)} (h : walk store n id pre out = .ok out') :
    ∃ fs : List (String × FileEntry), out' = out ++ fs.map triple ∧ ∀ acc : FileMap,
      walkEntriesWithPerms store n id pre acc =
        .ok (fs.foldl (fun acc f => acc.insert f.1 f.2) acc) := by
  induction n generalizing id pre out out' with
  | zero => cases h
  | succ n ih =>
    unfold walk at h
    obtain ⟨t, ht, hfold⟩ := Fallible.bind_ok h
    clear h
    simp only [walk_succ ht]
    generalize t.entries = es at hfold
    induction es generalizing out with
    | nil =>
      cases hfold
      exact ⟨[], by simp, fun acc => rfl⟩
    | cons e es ihes =>
      rw [List.foldlM_cons] at hfold
      obtain ⟨mid, hmid, hrest⟩ := Fallible.bind_ok hfold
      obtain ⟨fs, rfl, hfs⟩ : ∃ fs : List (String × FileEntry), mid = out ++ fs.map triple ∧
          ∀ acc, walkEntry store n (join pre e.name) e acc =
            .ok (fs.foldl (fun acc f => acc.insert f.1 f.2) acc) := by
        cases hk : e.kind with
        | blob =>
          simp only [hk] at hmid
          cases hmid
          refine ⟨[(join pre e.name, fileEntry e)], rfl, fun acc => ?_⟩
          unfold walkEntry
          rw [hk]
          rfl
        | tree =>
          simp only [hk] at hmid
          obtain ⟨fs, hout, hfs⟩ := ih hmid
          refine ⟨fs, hout, fun acc => ?_⟩
          unfold walkEntry
          rw [hk]
          exact hfs acc
      obtain ⟨gs, rfl, hgs⟩ := ihes hrest
      refine ⟨fs ++ gs, by simp, fun acc => ?_⟩
      rw [List.foldlM_cons, hfs acc, List.foldl_append]
      exact hgs _

theorem foldl_insert_triple (fs : List (String × FileEntry)) (k : String) :
    ((fs.map triple).foldl (fun (map : BTreeMap String (ObjectId × FileMode)) f =>
        map.insert f.1 f.2) ∅)[k]? =
      (fs.foldl (fun (acc : FileMap) f => acc.insert f.1 f.2) ∅)[k]?.map plain := by
  suffices h : ∀ (map : BTreeMap String (ObjectId × FileMode)) (acc : FileMap),
      (∀ k : String, map[k]? = acc[k]?.map plain) → ∀ k : String,
      ((fs.map triple).foldl (fun (map : BTreeMap String (ObjectId × FileMode)) f =>
        map.insert f.1 f.2) map)[k]? =
        (fs.foldl (fun (acc : FileMap) f => acc.insert f.1 f.2) acc)[k]?.map plain from
    h ∅ ∅ (fun k => by simp) k
  induction fs with
  | nil => exact fun map acc hk k => hk k
  | cons f fs ih =>
    intro map acc hk
    refine ih _ _ (fun k => ?_)
    rw [BTreeMap.getElem?_insert, BTreeMap.getElem?_insert, hk]
    unfold triple
    split_ifs <;> rfl

theorem mem_foldl_insert (fs : List (String × FileEntry)) (k : String) :
    k ∈ (fs.map triple).foldl (fun (set : BTreeSet String) f => set.insert f.1) ∅ ↔
      ∃ fe, (fs.foldl (fun (acc : FileMap) f => acc.insert f.1 f.2) ∅)[k]? = some fe := by
  suffices h : ∀ (set : BTreeSet String) (acc : FileMap),
      (∀ k : String, k ∈ set ↔ ∃ fe, acc[k]? = some fe) → ∀ k : String,
      k ∈ (fs.map triple).foldl (fun (set : BTreeSet String) f => set.insert f.1) set ↔
        ∃ fe, (fs.foldl (fun (acc : FileMap) f => acc.insert f.1 f.2) acc)[k]? = some fe from
    h ∅ ∅ (fun k => by simp) k
  induction fs with
  | nil => exact fun set acc hk k => hk k
  | cons f fs ih =>
    intro set acc hk
    refine ih _ _ (fun k => ?_)
    rw [BTreeSet.mem_insert, BTreeMap.getElem?_insert, hk]
    unfold triple
    split_ifs with h
    · exact ⟨fun _ => ⟨_, rfl⟩, fun _ => .inl h.symm⟩
    · exact ⟨fun hor => hor.resolve_left (fun he => h he.symm), .inr⟩

/-! ## The overlay -/

/-- What a staged entry makes of its path. -/
def stagedFile (idOf : Object → ObjectId) : Staged → Option (ObjectId × FileMode)
  | .written b mode => some (idOf (.blob b), mode)
  | .removed => none

theorem flush_emits (idOf : Object → ObjectId) {l : List (String × Staged)}
    (hn : (l.map (·.1)).Nodup) (map : BTreeMap String (ObjectId × FileMode)) :
    ∃ map' os, Emits (l.foldlM (Worktree.flush idOf) map) map' os ∧
      (∀ p b mode, (p, Staged.written b mode) ∈ l → .blob b ∈ os) ∧
      ∀ k, (∀ s, (k, s) ∈ l → map'[k]? = stagedFile idOf s) ∧
        ((∀ s, (k, s) ∉ l) → map'[k]? = map[k]?) := by
  induction l generalizing map with
  | nil => exact ⟨map, [], emits_pure map, by simp, by simp⟩
  | cons x l ih =>
    obtain ⟨p, s⟩ := x
    rw [List.map_cons, List.nodup_cons] at hn
    obtain ⟨mid, os, hmid, hblob, hget⟩ : ∃ mid os,
        Emits (Worktree.flush idOf map (p, s)) mid os ∧
        (∀ b mode, s = .written b mode → .blob b ∈ os) ∧
        ∀ k, mid[k]? = if p = k then stagedFile idOf s else map[k]? := by
      cases s with
      | written b mode =>
        refine ⟨_, _, (emits_put idOf (.blob b)).map (fun id => map.insert p (id, mode)), ?_,
          fun k => BTreeMap.getElem?_insert map p k _⟩
        rintro b' mode' he
        cases he
        exact List.mem_singleton_self _
      | removed =>
        exact ⟨_, _, emits_pure (map.erase p), by simp, fun k => BTreeMap.getElem?_erase map p k⟩
    obtain ⟨map', os', hmap', hblobs, hall⟩ := ih hn.2 mid
    refine ⟨map', os ++ os', ?_, ?_, fun k => ⟨fun s' hs' => ?_, fun hno => ?_⟩⟩
    · rw [List.foldlM_cons]
      exact hmid.bind hmap'
    · intro q b mode hq
      rcases List.mem_cons.mp hq with he | hq
      · cases he
        exact List.mem_append_left os' (hblob b mode rfl)
      · exact List.mem_append_right os (hblobs q b mode hq)
    · rcases List.mem_cons.mp hs' with he | hs'
      · cases he
        rw [(hall p).2 (fun s' h' => hn.1 (List.mem_map.mpr ⟨_, h', rfl⟩)), hget, if_pos rfl]
      · exact (hall k).1 s' hs'
    · rw [(hall k).2 (fun s' h' => hno s' (List.mem_cons_of_mem _ h')), hget, if_neg]
      rintro rfl
      exact hno s List.mem_cons_self

theorem mem_foldl_listOverlay {l : List (String × Staged)} (hn : (l.map (·.1)).Nodup)
    (set : BTreeSet String) (k : String) :
    (∀ s, (k, s) ∈ l → (k ∈ l.foldl Worktree.listOverlay set ↔ s ≠ .removed)) ∧
      ((∀ s, (k, s) ∉ l) → (k ∈ l.foldl Worktree.listOverlay set ↔ k ∈ set)) := by
  induction l generalizing set with
  | nil => simp
  | cons x l ih =>
    obtain ⟨p, s⟩ := x
    rw [List.map_cons, List.nodup_cons] at hn
    have hmid : k ∈ Worktree.listOverlay set (p, s) ↔
        if p = k then s ≠ .removed else k ∈ set := by
      cases s with
      | written b mode =>
        change k ∈ set.insert p ↔ _
        rw [BTreeSet.mem_insert]
        split_ifs with h
        · simp [h.symm]
        · exact ⟨fun hor => hor.resolve_left (fun he => h he.symm), .inr⟩
      | removed =>
        change k ∈ set.erase p ↔ _
        rw [Std.ExtTreeSet.mem_erase, ne_eq, Std.LawfulEqOrd.compare_eq_iff_eq]
        split_ifs with h <;> simp [h]
    obtain ⟨hin, hout⟩ := ih hn.2 (Worktree.listOverlay set (p, s))
    refine ⟨fun s' hs' => ?_, fun hno => ?_⟩
    · rcases List.mem_cons.mp hs' with he | hs'
      · cases he
        rw [List.foldl_cons, hout (fun s' h' => hn.1 (List.mem_map.mpr ⟨_, h', rfl⟩)), hmid, if_pos rfl]
      · exact hin s' hs'
    · rw [List.foldl_cons, hout (fun s' h' => hno s' (List.mem_cons_of_mem _ h')), hmid, if_neg]
      rintro rfl
      exact hno s List.mem_cons_self

/-! ## Reading by path -/

/-- The trees at or below `id` are held, sorted and named by single components. -/
def WellFormedAt (store : Store) : Nat → ObjectId → Prop
  | 0, _ => False
  | n + 1, id => ∃ t, store.getTree id = .ok t ∧ t.Sorted ∧
      ∀ e ∈ t.entries, IsName e.name ∧ (e.kind = .tree → WellFormedAt store n e.id)

theorem WellFormedAt.flattens {n : Nat} {id : ObjectId} (h : WellFormedAt store n id)
    (pre : String) : ∃ m, Flattens store id pre m := by
  induction n generalizing id pre with
  | zero => exact h.elim
  | succ n ih =>
    obtain ⟨t, ht, hs, hall⟩ := h
    have hflat : ∀ e ∈ t.entries, ∃ m, EntryFlattens store (join pre e.name) e m := by
      intro e he
      cases hk : e.kind with
      | blob => exact ⟨_, entryFlattens_blob hk⟩
      | tree =>
        obtain ⟨m, hm⟩ := ih ((hall e he).2 hk) (join pre e.name)
        exact ⟨m, (entryFlattens_tree hk).mpr hm⟩
    obtain ⟨m, hm, -⟩ := flattens_node ht hs (fun e he => (hall e he).1) hflat
    exact ⟨m, hm⟩

theorem ofNames_atOrBelow {ds rest : List String} {c : String} (hd : ∀ d ∈ ds, IsName d)
    (hc : IsName c) (hr : ∀ r ∈ rest, IsName r) :
    AtOrBelow (join (ofNames ds) c) (ofNames (ds ++ c :: rest)) := by
  rw [← ofNames_append_singleton]
  by_cases h : rest = []
  · subst h
    exact .inl rfl
  · refine .inr ⟨ofNames rest, ?_⟩
    have hsplit : ds ++ c :: rest = (ds ++ [c]) ++ rest := by simp
    rw [hsplit]
    exact ofNames_append (isName_append_singleton hd hc) (by simp) hr h

/-- Below one name, a flattened directory holds what the entry of that name yields. -/
theorem Flattens.lookup {id : ObjectId} {t : Tree} (ht : store.getTree id = .ok t)
    (hs : t.Sorted) (hn : ∀ e ∈ t.entries, IsName e.name) {ds : List String}
    (hd : ∀ d ∈ ds, IsName d) {m : FileMap} (hm : Flattens store id (ofNames ds) m)
    {c : String} {rest : List String} (hc : IsName c) (hr : ∀ r ∈ rest, IsName r) :
    match t.get c with
    | none => m[ofNames (ds ++ c :: rest)]? = none
    | some e => ∃ m' : FileMap, EntryFlattens store (ofNames (ds ++ [c])) e m' ∧
        m[ofNames (ds ++ c :: rest)]? = m'[ofNames (ds ++ c :: rest)]? := by
  obtain ⟨m₀, hm₀, hiff⟩ := flattens_node ht hs hn (fun e he => hm.entry ht he)
  obtain rfl := hm.unique hm₀
  have hbelow := ofNames_atOrBelow hd hc hr
  have hname : ∀ e ∈ t.entries, ∀ m' : FileMap,
      EntryFlattens store (join (ofNames ds) e.name) e m' → ∀ fe,
      m'[ofNames (ds ++ c :: rest)]? = some fe → e.name = c := by
    intro e he m' hm' fe hk
    exact (hm'.atOrBelow (join_ne_empty (hn e he)) hk).join_eq (hn e he).2 hc.2 hbelow
  cases hget : t.get c with
  | none =>
    refine Option.eq_none_iff_forall_ne_some.mpr (fun fe hfe => ?_)
    obtain ⟨e, he, m', hm', hk⟩ := (hiff _ fe).mp hfe
    have hsome := hs.get_eq_some_iff.mpr ⟨he, hname e he m' hm' fe hk⟩
    rw [hget] at hsome
    cases hsome
  | some e =>
    obtain ⟨he, rfl⟩ := hs.get_eq_some_iff.mp hget
    obtain ⟨m', hm'⟩ := hm.entry ht he
    refine ⟨m', by rwa [ofNames_append_singleton], Option.ext (fun fe => ?_)⟩
    rw [hiff]
    constructor
    · rintro ⟨e', he', m'', hm'', hk⟩
      obtain rfl := eq_of_name_eq hs he he' (hname e' he' m'' hm'' fe hk).symm
      rwa [hm'.unique hm'']
    · intro hk
      exact ⟨e, he, m', hm', hk⟩

/-- Resolving a path finds the blob id the flattened tree has there. -/
theorem resolve_flattens {n : Nat} {id : ObjectId} (h : WellFormedAt store n id)
    {ds : List String} (hd : ∀ d ∈ ds, IsName d) {m : FileMap}
    (hm : Flattens store id (ofNames ds) m) {cs : List String} (hcs : cs ≠ [])
    (hc : ∀ c ∈ cs, IsName c) :
    resolve store id cs = .ok (m[ofNames (ds ++ cs)]?.map (·.id)) := by
  induction n generalizing id ds m cs with
  | zero => exact h.elim
  | succ n ih =>
    obtain ⟨t, ht, hs, hall⟩ := h
    obtain ⟨c, rest, rfl⟩ := List.exists_cons_of_ne_nil hcs
    have hcn : IsName c := hc c List.mem_cons_self
    have hr : ∀ r ∈ rest, IsName r := fun r hr => hc r (List.mem_cons_of_mem c hr)
    have hlook := Flattens.lookup ht hs (fun e he => (hall e he).1) hd hm hcn hr
    have hpath : ofNames (ds ++ [c]) ≠ "" :=
      ofNames_ne_empty (isName_append_singleton hd hcn) (by simp)
    rw [resolve, ht]
    simp only [bind, Except.bind]
    cases hget : t.get c with
    | none =>
      rw [hget] at hlook
      rw [hlook]
      rfl
    | some e =>
      rw [hget] at hlook
      obtain ⟨m', hm', hk⟩ := hlook
      rw [hk]
      obtain ⟨he, -⟩ := hs.get_eq_some_iff.mp hget
      have hne : rest ≠ [] → ofNames (ds ++ c :: rest) ≠ ofNames (ds ++ [c]) := by
        intro hrest heq
        rw [ofNames_inj (fun x hx => ?_) (isName_append_singleton hd hcn)] at heq
        · exact hrest (by simpa using heq)
        · rcases List.mem_append.mp hx with hx | hx
          · exact hd x hx
          · exact hc x hx
      cases hkind : e.kind with
      | blob =>
        obtain rfl := hm'.unique (entryFlattens_blob hkind)
        rw [BTreeMap.getElem?_insert]
        cases rest with
        | nil => simp [hkind, fileEntry, pure, Except.pure]
        | cons r rest =>
          rw [if_neg (hne (by simp)).symm]
          simp [hkind, pure, Except.pure]
      | tree =>
        have hm'' := (entryFlattens_tree hkind).mp hm'
        cases rest with
        | nil =>
          have hnone : m'[ofNames (ds ++ [c])]? = none := by
            refine Option.eq_none_iff_forall_ne_some.mpr (fun fe hfe => ?_)
            obtain ⟨k, hwalk⟩ := hm''
            rcases walk_below hpath hwalk hfe with h | ⟨x, hx⟩
            · simp at h
            · have hl := congrArg (fun s => s.toList.length) hx
              simp [String.toList_append] at hl
          simp [hkind, hnone, pure, Except.pure]
        | cons r rest =>
          have hne' : r :: rest ≠ [] := by simp
          have hih := ih ((hall e he).2 hkind) (isName_append_singleton hd hcn) hm'' hne' hr
          rw [List.append_assoc] at hih
          simp only [hkind]
          exact hih

/-- The paths of a well-formed tree are spelled by names. -/
theorem WellFormedAt.spelled {n : Nat} {id : ObjectId} (h : WellFormedAt store n id)
    {ds : List String} (hd : ∀ d ∈ ds, IsName d) {m : FileMap}
    (hm : Flattens store id (ofNames ds) m) {key : String} {fe : FileEntry}
    (hk : m[key]? = some fe) :
    ∃ cs, cs ≠ [] ∧ (∀ c ∈ cs, IsName c) ∧ key = ofNames (ds ++ cs) := by
  induction n generalizing id ds m with
  | zero => exact h.elim
  | succ n ih =>
    obtain ⟨t, ht, hs, hall⟩ := h
    obtain ⟨m₀, hm₀, hiff⟩ :=
      flattens_node ht hs (fun e he => (hall e he).1) (fun e he => hm.entry ht he)
    obtain rfl := hm.unique hm₀
    obtain ⟨e, he, m', hm', hk'⟩ := (hiff key fe).mp hk
    have hname := (hall e he).1
    rw [← ofNames_append_singleton] at hm'
    cases hkind : e.kind with
    | blob =>
      obtain rfl := hm'.unique (entryFlattens_blob hkind)
      rw [BTreeMap.getElem?_insert] at hk'
      split_ifs at hk' with hkey
      · exact ⟨[e.name], by simp, by simpa using hname, hkey.symm⟩
      · simp at hk'
    | tree =>
      obtain ⟨cs, -, hcn, rfl⟩ := ih ((hall e he).2 hkind) (isName_append_singleton hd hname)
        ((entryFlattens_tree hkind).mp hm') hk'
      refine ⟨e.name :: cs, by simp, fun c hc => ?_, by rw [List.append_assoc]; rfl⟩
      rcases List.mem_cons.mp hc with rfl | hc
      · exact hname
      · exact hcn c hc

theorem WellFormedAt.no_root_file {n : Nat} {id : ObjectId} (h : WellFormedAt store n id)
    {m : FileMap} (hm : Flattens store id "" m) : m[""]? = none := by
  refine Option.eq_none_iff_forall_ne_some.mpr (fun fe hfe => ?_)
  obtain ⟨cs, hcs, hcn, he⟩ := @WellFormedAt.spelled store n id h [] (by simp) m hm _ _ hfe
  exact ofNames_ne_empty hcn hcs he.symm

/-! ## A larger store -/

section Grow

variable {store' : Store} (hext : Extends store store')

include hext

theorem get_extends {id : ObjectId} {o : Object} (h : store.get id = .ok o) :
    store'.get id = .ok o :=
  Store.get_eq_ok_iff.mpr (hext id o (Store.get_eq_ok_iff.mp h))

theorem getTree_extends {id : ObjectId} {t : Tree} (h : store.getTree id = .ok t) :
    store'.getTree id = .ok t :=
  Store.getTree_eq_ok_iff.mpr (get_extends hext (Store.getTree_eq_ok_iff.mp h))

theorem WellFormedAt.extends {n : Nat} {id : ObjectId} (h : WellFormedAt store n id) :
    WellFormedAt store' n id := by
  induction n generalizing id with
  | zero => exact h
  | succ n ih =>
    obtain ⟨t, ht, hs, hall⟩ := h
    exact ⟨t, getTree_extends hext ht, hs, fun e he => ⟨(hall e he).1, fun hk => ih ((hall e he).2 hk)⟩⟩

theorem walk_extends {n : Nat} {id : ObjectId} {pre : String} {out m : FileMap}
    (h : walkEntriesWithPerms store n id pre out = .ok m) :
    walkEntriesWithPerms store' n id pre out = .ok m := by
  induction n generalizing id pre out m with
  | zero => cases h
  | succ n ih =>
    cases ht : store.getTree id with
    | error err =>
      rw [walkEntriesWithPerms, ht] at h
      cases h
    | ok t =>
      rw [walk_succ (getTree_extends hext ht)]
      rw [walk_succ ht] at h
      generalize t.entries = es at h
      induction es generalizing out with
      | nil => exact h
      | cons e es ihes =>
        rw [List.foldlM_cons] at h ⊢
        obtain ⟨mid, hmid, h⟩ := Fallible.bind_ok h
        have hstep : walkEntry store' n (join pre e.name) e out = .ok mid := by
          unfold walkEntry at hmid ⊢
          cases hk : e.kind with
          | blob => rwa [hk] at hmid
          | tree =>
            rw [hk] at hmid
            exact ih hmid
        rw [hstep]
        exact ihes h

theorem Flattens.extends {id : ObjectId} {pre : String} {m : FileMap}
    (h : Flattens store id pre m) : Flattens store' id pre m := by
  obtain ⟨n, h⟩ := h
  exact ⟨n, walk_extends hext h⟩

theorem readBlob_extends {path : String} {id : ObjectId} {b : Bytes}
    (h : Worktree.readBlob store path id = .ok b) : Worktree.readBlob store' path id = .ok b := by
  unfold Worktree.readBlob at h ⊢
  obtain ⟨o, ho, h⟩ := Fallible.bind_ok h
  rw [get_extends hext ho]
  exact h

end Grow

/-! ## Reading and listing a worktree -/

theorem read_spec {wt : Worktree} {n : Nat} (h : WellFormedAt store n wt.baseRoot) {m : FileMap}
    (hm : Flattens store wt.baseRoot "" m) (path : String) :
    wt.read store path = match wt.overlay[normalize path]? with
      | some (.written b _) => .ok b
      | some .removed => .error (.pathNotFound (normalize path))
      | none => match m[normalize path]? with
        | some fe => Worktree.readBlob store (normalize path) fe.id
        | none => .error (.pathNotFound (normalize path)) := by
  unfold Worktree.read
  cases hov : wt.overlay[normalize path]? with
  | some s => cases s <;> simp [hov]
  | none =>
    obtain ⟨cs, hcs, hp⟩ := normalize_names path
    have hcn : ∀ c ∈ cs, IsName c := fun c hc => (hcs c hc).1
    have hresolve : wt.resolveBase store (normalize path) =
        .ok (m[normalize path]?.map (·.id)) := by
      unfold Worktree.resolveBase
      rw [hp]
      by_cases hnil : cs = []
      · subst hnil
        rw [ofNames_nil, h.no_root_file hm]
        rfl
      · rw [split_ofNames hcn hnil, List.filter_eq_self.mpr (fun c hc => by
          simpa using (hcn c hc).1)]
        exact @resolve_flattens store n _ h [] (by simp) m hm cs hnil hcn
    simp only [hov, hresolve]
    cases m[normalize path]? <;> rfl

/-- What flattens is walked. -/
theorem walk_of_flattens {n : Nat} {id : ObjectId} {pre : String} {acc m : FileMap}
    (h : walkEntriesWithPerms store n id pre acc = .ok m)
    (out : List (String × ObjectId × FileMode)) : ∃ out', walk store n id pre out = .ok out' := by
  induction n generalizing id pre acc m out with
  | zero => cases h
  | succ n ih =>
    cases ht : store.getTree id with
    | error err =>
      rw [walkEntriesWithPerms, ht] at h
      cases h
    | ok t =>
      rw [walk_succ ht] at h
      unfold walk
      rw [ht]
      simp only [bind, Except.bind]
      generalize t.entries = es at h
      induction es generalizing acc out with
      | nil => exact ⟨out, rfl⟩
      | cons e es ihes =>
        rw [List.foldlM_cons] at h ⊢
        obtain ⟨mid, hmid, hrest⟩ := Fallible.bind_ok h
        unfold walkEntry at hmid
        cases hk : e.kind with
        | blob => exact ihes _ hrest
        | tree =>
          rw [hk] at hmid
          obtain ⟨out', hout'⟩ := ih hmid out
          have hout' : walk store n e.id (if pre = "" then e.name else pre ++ "/" ++ e.name) out =
              .ok out' := hout'
          simp only [hout', bind, Except.bind]
          exact ihes out' hrest

/-- The base of a worktree as triples and as a flattened map. -/
theorem walkBase_ok {wt : Worktree} {n : Nat} {base : List (String × ObjectId × FileMode)}
    (h : wt.walkBase n store = .ok base) :
    ∃ fs : List (String × FileEntry), base = fs.map triple ∧
      Flattens store wt.baseRoot "" (fs.foldl (fun acc f => acc.insert f.1 f.2) ∅) := by
  obtain ⟨fs, hbase, hfs⟩ := walk_ok h
  exact ⟨fs, by simpa using hbase, n, hfs ∅⟩

theorem nodup_overlay (overlay : BTreeMap String Staged) : (overlay.toList.map (·.1)).Nodup := by
  refine List.pairwise_map.mpr ((Std.ExtTreeMap.distinct_keys_toList (t := overlay)).imp ?_)
  intro a b h he
  exact h (by rw [he]; exact Std.ReflOrd.compare_self)

/-- A worktree lists the base files it does not stage and the files it writes. -/
theorem list_spec {wt : Worktree} {m : FileMap} (hm : Flattens store wt.baseRoot "" m) :
    ∃ n, ∃ set : BTreeSet String, wt.list n store = .ok set.toList ∧ ∀ k, k ∈ set ↔
      match wt.overlay[k]? with
      | some s => s ≠ .removed
      | none => ∃ fe, m[k]? = some fe := by
  obtain ⟨n, hn⟩ := hm
  obtain ⟨base, hbase⟩ := walk_of_flattens hn []
  have hwalk : wt.walkBase n store = .ok base := hbase
  obtain ⟨fs, rfl, hfs⟩ := walkBase_ok hwalk
  obtain rfl := Flattens.unique ⟨n, hn⟩ hfs
  refine ⟨n, _, by unfold Worktree.list Worktree.walkBase; rw [hbase]; rfl, fun k => ?_⟩
  obtain ⟨hin, hout⟩ := mem_foldl_listOverlay (nodup_overlay wt.overlay)
    ((fs.map triple).foldl (fun (set : BTreeSet String) f => set.insert f.1) ∅) k
  cases hov : wt.overlay[k]? with
  | some s => exact hin s ((BTreeMap.mem_toList_iff _ _ _).mpr hov)
  | none =>
    rw [hout (fun s hs => by
      rw [BTreeMap.mem_toList_iff, hov] at hs
      cases hs)]
    exact mem_foldl_insert fs k

/-! ## A commit that succeeded -/

/-- The snapshot a commit puts. -/
def Worktree.snapshot (wt : Worktree) (author message : String) (root : ObjectId) : Object :=
  .snapshot ⟨root, [wt.baseSnapshot], author, 0, message, wt.secrets, wt.protection⟩

theorem commit_ok {wt : Worktree} {n : Nat} {author message : String} {id : ObjectId}
    {os : List Object}
    (h : (wt.commit n idOf store author message).run [] = (.ok id, os)) :
    ∃ (m : FileMap) (files : BTreeMap String (ObjectId × FileMode)) (blobs log : List Object)
      (root : ObjectId), Flattens store wt.baseRoot "" m ∧
      (∀ (p : String) (b : Bytes) (mode : FileMode),
        wt.overlay[p]? = some (Staged.written b mode) → .blob b ∈ blobs) ∧
      (∀ k : String, files[k]? = match wt.overlay[k]? with
        | some s => stagedFile idOf s
        | none => m[k]?.map plain) ∧
      (buildTree idOf files).run blobs = (.ok root, log) ∧
      os = log ++ [wt.snapshot author message root] ∧
      id = idOf (wt.snapshot author message root) := by
  unfold Worktree.commit at h
  obtain ⟨base, log₀, hbase, h⟩ := run_bind_ok h
  obtain ⟨hwalk, rfl⟩ := run_lift_ok hbase
  obtain ⟨fs, rfl, hfs⟩ := walkBase_ok hwalk
  obtain ⟨files, blobs, hfiles, h⟩ := run_bind_ok h
  obtain ⟨files', blobs', hemits, hblobs, hget⟩ := flush_emits idOf (nodup_overlay wt.overlay)
    ((fs.map triple).foldl (fun (map : BTreeMap String (ObjectId × FileMode)) f =>
      map.insert f.1 f.2) ∅)
  have hsame := hfiles.symm.trans (hemits [])
  rw [List.nil_append] at hsame
  cases hsame
  obtain ⟨root, log, hroot, h⟩ := run_bind_ok h
  refine ⟨_, files, blobs, log, root, hfs, fun p b mode hp => ?_, fun k => ?_, hroot, ?_⟩
  · exact hblobs p b mode ((BTreeMap.mem_toList_iff _ _ _).mpr hp)
  · cases hov : wt.overlay[k]? with
    | some s => exact (hget k).1 s ((BTreeMap.mem_toList_iff _ _ _).mpr hov)
    | none =>
      rw [(hget k).2 (fun s hs => by
        rw [BTreeMap.mem_toList_iff, hov] at hs
        cases hs)]
      exact foldl_insert_triple fs k
  · cases h
    exact ⟨rfl, rfl⟩

/-- Trees built from files alone are well formed. -/
theorem Built.wellFormed {files : FileMap} {os : List Object}
    (hos : ∀ t, .tree t ∈ os → store.getTree (idOf (.tree t)) = .ok t) {n : Nat}
    {ds : List String} {id : ObjectId} (h : Built idOf files ∅ os n ds id) :
    WellFormedAt store n id := by
  induction n generalizing ds id with
  | zero => exact h
  | succ n ih =>
    obtain ⟨t, ht, rfl, hs, hall, -, -⟩ := h
    refine ⟨t, hos t ht, hs, fun e he => ?_⟩
    rcases hall e he with hp | ⟨hn, -, -, hb⟩
    · refine ⟨hp.name.1, fun hk => ?_⟩
      cases hp with
      | file hn hf => cases hk
      | carried hn hc => simp at hc
    · exact ⟨hn, fun _ => ih hb⟩

/-- The map a tree is built from. -/
def withPerms (files : BTreeMap String (ObjectId × FileMode)) : FileMap :=
  files.map (fun _ f => ⟨f.1, f.2, 0⟩)

theorem getElem?_withPerms (files : BTreeMap String (ObjectId × FileMode)) (k : String) :
    (withPerms files)[k]? = files[k]?.map (fun f => ⟨f.1, f.2, 0⟩) := by
  unfold withPerms
  rw [Std.ExtTreeMap.getElem?_map]

/-- A built tree flattens to the files it was built from, none with a perms bit. -/
theorem buildTree_flattens {files : BTreeMap String (ObjectId × FileMode)}
    {blobs log os : List Object} {root : ObjectId} (hs : Spelled (withPerms files))
    (h : (buildTree idOf files).run blobs = (.ok root, log)) (hsub : log ⊆ os)
    (hu : Unambiguous idOf store os) :
    blobs ⊆ os ∧ ∃ n, WellFormedAt (store.putAll idOf os) n root ∧
      Flattens (store.putAll idOf os) root "" (withPerms files) := by
  have hcarried : ∀ (p : String) (e : TreeEntry),
      (∅ : BTreeMap String TreeEntry)[p]? ≠ some e := by simp
  have hc : Spelled (∅ : BTreeMap String TreeEntry) := fun p e he => absurd he (hcarried p e)
  by_cases hclear : Clear (withPerms files) ∅
  · obtain ⟨root', os', hemits, hb⟩ := @buildRoot_emits idOf _ _ hs hc hclear
    have hrun := (hemits blobs).symm.trans h
    cases hrun
    have hos : ∀ t, .tree t ∈ os' →
        (store.putAll idOf os).getTree (idOf (.tree t)) = .ok t := fun t ht =>
      Store.getTree_eq_ok_iff.mpr (Store.putAll_get hu (hsub (List.mem_append_right blobs ht)))
    have hall : AllFlatten (store.putAll idOf os) (withPerms files) ∅ [] :=
      (allFlatten_root_iff hc).mpr (fun p e he => absurd he (hcarried p e))
    obtain ⟨m, hm, hiff⟩ := hb.flattens hos hall
    have hmap : m = withPerms files := by
      refine Std.ExtTreeMap.ext_getElem? (fun k => Option.ext (fun fe => ?_))
      rw [hiff, yields_root_iff hs hc]
      simp
    exact ⟨fun o ho => hsub (List.mem_append_left os' ho), _, Built.wellFormed hos hb, hmap ▸ hm⟩
  · obtain ⟨err, herr⟩ := @buildRoot_error idOf _ _ hclear blobs
    have hrun : (buildTree idOf files).run blobs = (.error err, blobs) := herr
    rw [hrun] at h
    cases h

/-! ## What a commit keeps -/

/-- The new snapshot changed what was edited only, and a fork of it has the same files. -/
structure Kept (store store' : Store) (wt wt' : Worktree) : Prop where
  tree : ∃ m m' : FileMap, Flattens store wt.baseRoot "" m ∧ Flattens store' wt'.baseRoot "" m' ∧
    ∀ path : String, match wt.overlay[path]? with
      | none => m'[path]? = m[path]?
      | some (.written b mode) =>
        ∃ fe, m'[path]? = some fe ∧ fe.mode = mode ∧ store'.get fe.id = .ok (.blob b)
      | some .removed => m'[path]? = none
  lists : ∃ n n' names, wt.list n store = .ok names ∧ wt'.list n' store' = .ok names
  reads : ∀ path, wt'.read store' path = wt.read store' path
  before : ∀ path b, wt.read store path = .ok b → wt'.read store' path = .ok b

/-- No base file outside the overlay carries a perms bit. -/
def PlainBase (store : Store) (wt : Worktree) : Prop :=
  ∀ m : FileMap, Flattens store wt.baseRoot "" m → ∀ (path : String) (fe : FileEntry),
    m[path]? = some fe → wt.overlay[path]? = none → fe.perms = 0

/-- No file was written at the empty path. -/
def NoRootFile (wt : Worktree) : Prop :=
  ∀ b mode, wt.overlay[""]? ≠ some (Staged.written b mode)

theorem read_written {wt : Worktree} {path : String} {b : Bytes} {mode : FileMode}
    (h : wt.overlay[normalize path]? = some (.written b mode)) : wt.read store path = .ok b := by
  unfold Worktree.read
  simp only [h]

theorem normalize_empty : normalize "" = "" := @normalize_ofNames [] (by simp)

/-- The empty path never reads from a base. -/
theorem read_root {wt : Worktree} (h : wt.overlay = ∅) :
    wt.read store "" = .error (.pathNotFound "") := by
  have hsplit : (split "").filter (· ≠ "") = [] := by
    rw [split_name (by simp)]
    rfl
  unfold Worktree.read
  rw [normalize_empty, h]
  simp only [Std.ExtTreeMap.getElem?_empty, Worktree.resolveBase, hsplit]
  rfl

theorem spelled_committed {wt : Worktree} (hnormal : wt.Normal) (hroot : NoRootFile wt) {n : Nat}
    (hwf : WellFormedAt store n wt.baseRoot) {m : FileMap}
    (hm : Flattens store wt.baseRoot "" m) {files : BTreeMap String (ObjectId × FileMode)}
    (hfiles : ∀ k : String, files[k]? = match wt.overlay[k]? with
      | some s => stagedFile idOf s
      | none => m[k]?.map plain) : Spelled (withPerms files) := by
  intro p fe hp
  rw [getElem?_withPerms, hfiles] at hp
  cases hov : wt.overlay[p]? with
  | none =>
    rw [hov] at hp
    obtain ⟨f, hf, -⟩ := Option.map_eq_some_iff.mp hp
    obtain ⟨fe', hfe', -⟩ := Option.map_eq_some_iff.mp hf
    exact @WellFormedAt.spelled store n _ hwf [] (by simp) m hm p fe' hfe'
  | some s =>
    rw [hov] at hp
    cases s with
    | removed => simp [stagedFile] at hp
    | written b mode =>
      obtain ⟨cs, hcs, rfl⟩ := hnormal p _ hov
      refine ⟨cs, ?_, fun c hc => (hcs c hc).1, rfl⟩
      rintro rfl
      exact hroot b mode hov

/-- What the rebuilt map holds at a path. -/
theorem committed_at {wt : Worktree} {m : FileMap} (hplain : ∀ (path : String) (fe : FileEntry),
      m[path]? = some fe → wt.overlay[path]? = none → fe.perms = 0)
    {files : BTreeMap String (ObjectId × FileMode)}
    (hfiles : ∀ k : String, files[k]? = match wt.overlay[k]? with
      | some s => stagedFile idOf s
      | none => m[k]?.map plain) (path : String) :
    (withPerms files)[path]? = match wt.overlay[path]? with
      | none => m[path]?
      | some (.written b mode) => some ⟨idOf (.blob b), mode, 0⟩
      | some .removed => none := by
  rw [getElem?_withPerms, hfiles]
  cases hov : wt.overlay[path]? with
  | some s => cases s <;> rfl
  | none =>
    cases hm : m[path]? with
    | none => rfl
    | some fe =>
      have hperms := hplain path fe hm hov
      cases fe
      cases hperms
      rfl

theorem read_extends {wt : Worktree} {store' : Store} (hext : Extends store store') {n : Nat}
    (hwf : WellFormedAt store n wt.baseRoot) {m : FileMap} (hm : Flattens store wt.baseRoot "" m)
    {path : String} {b : Bytes} (h : wt.read store path = .ok b) : wt.read store' path = .ok b := by
  rw [read_spec hwf hm] at h
  rw [read_spec (hwf.extends hext) (Flattens.extends hext hm)]
  cases hov : wt.overlay[normalize path]? with
  | some s =>
    rw [hov] at h
    cases s with
    | written b' mode => exact h
    | removed => exact h
  | none =>
    rw [hov] at h
    cases hk : m[normalize path]? with
    | none =>
      rw [hk] at h
      cases h
    | some fe =>
      rw [hk] at h
      exact readBlob_extends hext h

section Keeps

variable {wt : Worktree} {n N : Nat} {author message label : String} {id root : ObjectId}
  {os : List Object} {m : FileMap} {files : BTreeMap String (ObjectId × FileMode)}

/-- A fork of the snapshot that was put. -/
def committed (wt : Worktree) (id root : ObjectId) (label : String) : Worktree :=
  ⟨id, root, ∅, wt.secrets, wt.protection, label⟩

theorem kept_of_plain (hext : Extends store (store.putAll idOf os))
    (hwf : WellFormedAt store n wt.baseRoot) (hm : Flattens store wt.baseRoot "" m)
    (hwf' : WellFormedAt (store.putAll idOf os) N root)
    (hm' : Flattens (store.putAll idOf os) root "" (withPerms files))
    (hat : ∀ path : String, (withPerms files)[path]? = match wt.overlay[path]? with
      | none => m[path]?
      | some (.written b mode) => some ⟨idOf (.blob b), mode, 0⟩
      | some .removed => none)
    (hblobs : ∀ (p : String) (b : Bytes) (mode : FileMode),
      wt.overlay[p]? = some (Staged.written b mode) →
      (store.putAll idOf os).get (idOf (.blob b)) = .ok (.blob b)) :
    Kept store (store.putAll idOf os) wt (committed wt id root label) := by
  have hreads : ∀ path, (committed wt id root label).read (store.putAll idOf os) path =
      wt.read (store.putAll idOf os) path := by
    intro path
    rw [@read_spec _ (committed wt id root label) N hwf' (withPerms files) hm' path,
      read_spec (hwf.extends hext) (Flattens.extends hext hm), hat]
    have hempty : (committed wt id root label).overlay[normalize path]? = none :=
      Std.ExtTreeMap.getElem?_empty
    rw [hempty]
    cases hov : wt.overlay[normalize path]? with
    | none => rfl
    | some s =>
      cases s with
      | removed => rfl
      | written b mode =>
        simp only [Worktree.readBlob, hblobs _ b mode hov]
        rfl
  refine ⟨⟨m, withPerms files, hm, hm', fun path => ?_⟩, ?_, hreads, fun path b h => ?_⟩
  · rw [hat]
    cases hov : wt.overlay[path]? with
    | none => rfl
    | some s =>
      cases s with
      | removed => rfl
      | written b mode => exact ⟨_, rfl, rfl, hblobs _ b mode hov⟩
  · obtain ⟨k, set, hlist, hset⟩ := list_spec hm
    obtain ⟨k', set', hlist', hset'⟩ := @list_spec _ (committed wt id root label) _ hm'
    have hsame : set' = set := by
      refine Std.ExtTreeSet.ext_mem (fun p => ?_)
      have hempty : (committed wt id root label).overlay[p]? = none :=
        Std.ExtTreeMap.getElem?_empty
      rw [hset', hset, hempty, hat]
      cases hov : wt.overlay[p]? with
      | none => rfl
      | some s => cases s <;> simp
    exact ⟨k, k', set.toList, hlist, hsame ▸ hlist'⟩
  · rw [hreads]
    exact read_extends hext hwf hm h

end Keeps

/-- A snapshot of one file `s` with the given perms. -/
def testBase (perms : UInt8) : Store :=
  testStore [(1, .tree ⟨[⟨"s", .blob, testId 2, .FILE, perms⟩]⟩), (2, .blob [7]),
    (3, .snapshot ⟨testId 1, [], "a", 0, "m", ∅, ⟨[], ∅⟩⟩)]

/-- A fork of it on which `b` was written. -/
def testWorktree : Worktree :=
  ⟨testId 3, testId 1, (∅ : BTreeMap String Staged).insert "b" (.written [1] .FILE), ∅, ⟨[], ∅⟩, "w"⟩

/-- What its commit puts: `s` has lost its perms. -/
def testTree : Tree :=
  ⟨[⟨"b", .blob, plainId (.blob [1]), .FILE, 0⟩, ⟨"s", .blob, testId 2, .FILE, 0⟩]⟩

def testSnapshot : Object := testWorktree.snapshot "a" "m" (plainId (.tree testTree))

def testPuts : List Object := [.blob [1], .tree testTree, testSnapshot]

theorem testWorktree_commit (perms : UInt8) :
    (testWorktree.commit 2 plainId (testBase perms) "a" "m").run [] =
      (.ok (plainId testSnapshot), testPuts) := by
  have htree : Tree.new testTree.entries = testTree := Tree.sorted_new_eq (by decide)
  have hbase : testWorktree.walkBase 2 (testBase perms) = .ok [("s", testId 2, .FILE)] := rfl
  have hoverlay : testWorktree.overlay.toList = [("b", .written [1] .FILE)] := rfl
  have hrun : (testWorktree.commit 2 plainId (testBase perms) "a" "m").run [] =
      (.ok (plainId (testWorktree.snapshot "a" "m" (plainId (.tree (Tree.new testTree.entries))))),
        [.blob [1], .tree (Tree.new testTree.entries),
          testWorktree.snapshot "a" "m" (plainId (.tree (Tree.new testTree.entries)))]) := by
    unfold Worktree.commit
    rw [hbase, hoverlay]
    rfl
  rw [htree] at hrun
  exact hrun

theorem testPuts_unambiguous (perms : UInt8) : Unambiguous plainId (testBase perms) testPuts where
  among := by decide +kernel
  held := by
    have hfresh : ∀ o ∈ testPuts, ∀ n ∈ [testId 1, testId 2, testId 3], plainId o ≠ n := by
      decide +kernel
    intro o ho o' h
    unfold testBase testStore at h
    simp only [List.foldl_cons, List.foldl_nil, BTreeMap.getElem?_insert] at h
    rw [if_neg (hfresh o ho _ (by simp)).symm, if_neg (hfresh o ho _ (by simp)).symm,
      if_neg (hfresh o ho _ (by simp)).symm] at h
    simp at h

theorem testWorktree_fork (perms : UInt8) :
    fork (testBase perms) (testId 3) "w" = .ok ⟨testId 3, testId 1, ∅, ∅, ⟨[], ∅⟩, "w"⟩ := rfl

theorem testWorktree_edits : testWorktree =
    [Edit.write "b" [1] .FILE].foldl Edit.apply ⟨testId 3, testId 1, ∅, ∅, ⟨[], ∅⟩, "w"⟩ := by
  have hb : normalize "b" = "b" := @normalize_ofNames ["b"] (by decide)
  change testWorktree = Worktree.write _ "b" [1] .FILE
  rw [Worktree.write, hb]
  rfl

end SrcControl.Vfs
