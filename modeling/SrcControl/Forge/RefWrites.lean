import SrcControl.Forge.RefPolicy

/-!
# Ruled branches over every write path

Pushes, contents writes, merges of pull requests and branch deletes check the policy each on its
own. A branch with a protection rule only moves forward under all of them, and the default branch
stays.
-/

namespace SrcControl.RefPolicy

open SlashPath Fallible

/-! ## The write paths -/

/-- A command of a push; the hook reads it as one line. -/
structure Command where
  old : String
  new : String
  name : String

def Command.line (c : Command) : String := c.old ++ " " ++ c.new ++ " " ++ c.name

/-- The all-zero id stands for no ref. -/
def heldId (oid : String) : Option String := if isDelete oid then none else some oid

/-- `receive-pack` carries out the commands that it can: the name is well formed and the ref holds
the old id. -/
inductive Applied (git : Git) : List Command → Refs → Refs → Prop
  | nil {refs : Refs} : Applied git [] refs refs
  | skip {c : Command} {cs : List Command} {refs refs' : Refs} (rest : Applied git cs refs refs') :
      Applied git (c :: cs) refs refs'
  | apply {c : Command} {cs : List Command} {refs refs' : Refs} (name : git.wellFormed c.name = true)
      (old : fullId c.old = true) (new : fullId c.new = true) (held : refs c.name = heldId c.old)
      (rest : Applied git cs (Function.update refs c.name (heldId c.new)) refs') :
      Applied git (c :: cs) refs refs'

inductive Verb
  | post
  | put
  | delete
deriving DecidableEq

/-- A contents request, as far as it chooses the branch. -/
structure Write where
  verb : Verb
  branch : Option String
  newBranch : Option String

inductive WriteRefusal
  | denied
  | noBranch (name : String)
  | alreadyExists (name : String)
  | conflicts (name : String)
deriving DecidableEq

/-- Whether a branch of the name exists, or lies above or below it. -/
def collides : List String → String → Option Bool
  | [], _ => none
  | n :: existing, new =>
    if n = new then some true
    else if startsWith n (new ++ "/") || startsWith new (n ++ "/") then some false
    else collides existing new

section Writes

variable (text : Text) (git : Git)

/-- The ref that `run` moves and the id that it expects there, after reading `old` from the base
branch and the names of the branches. -/
def writeTarget (info : RepoInfo) (w : Write) (old : Option String) (branches : List String) :
    Except WriteRefusal (String × Option String) :=
  let base := w.branch.getD info.defaultBranch
  let newBranch := w.newBranch.filter (fun n => n ≠ base)
  let target := newBranch.getD base
  match checkContentsWrite text info.rules target newBranch.isSome with
  | .error _ => .error .denied
  | .ok _ =>
    let bootstrap := old.isNone && w.verb = .post && newBranch.isNone && base = info.defaultBranch
    if old.isNone && !bootstrap then .error (.noBranch base)
    else match newBranch.bind (collides branches) with
      | some true => .error (.alreadyExists target)
      | some false => .error (.conflicts target)
      | none =>
        let creating := newBranch.isSome || bootstrap
        -- the rules are read again just before the ref moves
        match checkContentsWrite text info.rules target creating with
        | .error _ => .error .denied
        | .ok _ => .ok (if creating then (branchRef target, none) else (branchRef base, old))

inductive DeleteError
  | gone
  | gitFailed (e : String)
  | refused (e : String)
  | noSuchBranch

def retainForBranch (opened : Except String (List OpenPull)) (branch oid : String) :
    EStateM String Refs Unit :=
  match opened with
  | .error e => throw e
  | .ok ps => ps.forM (fun p => if p.headRef = branch then retain git p.number oid else pure ())

/-- `update-ref -d` with an expected value; whether the ref went. -/
def deleteRef (full tip : String) : EStateM DeleteError Refs Bool := fun refs =>
  if refs full = some tip ∧ (git.accepts refs full none).isOk then
    .ok true (Function.update refs full none)
  else .ok false refs

/-- One round of `delete_branch`, where the branch was read as `tip`. -/
def deleteBranch (info : RepoInfo) (opened : Except String (List OpenPull)) (branch : String)
    (tip : Option String) : EStateM DeleteError Refs Bool :=
  if info.live = false then throw .gone
  else if sameBranchName text info.defaultBranch branch then
    throw (.gitFailed "refusing to delete the default branch")
  else match checkBranchDelete text info.rules branch with
    | .error e => throw (.refused e)
    | .ok _ => match tip with
      | none => throw .noSuchBranch
      | some tip => do
        EStateM.adaptExcept DeleteError.gitFailed (retainForBranch git opened branch tip)
        deleteRef git (branchRef branch) tip

/-- A repository: its refs, and what its row and its open pull requests say. -/
structure Store where
  refs : Refs
  live : Bool
  pulls : List OpenPull

variable (defaultBranch : String) (rules : List Rule)

def Store.info (s : Store) : RepoInfo := ⟨defaultBranch, s.live, rules⟩

/-- The database answers with what it holds, or fails. -/
structure Answers (env : HookEnv) (s : Store) : Prop where
  lookup : ∀ info, env.lookup = .ok info → info = s.info defaultBranch rules
  openPulls : ∀ ps, env.openPulls = .ok ps → ps = s.pulls

/-- A push of the update lines `raw`: git carries out `commands` when the hook lets it. -/
structure Pushed (env : HookEnv) (stdin : Except String Bytes) (raw : Bytes)
    (commands : List Command) (s : Store) (refs' : Refs) : Prop where
  answers : Answers defaultBranch rules env s
  read : ∀ r, stdin = .ok r → r = raw
  sent : ∀ c ∈ commands, utf8 c.line ∈ raw.splitOn 10
  refs : if (preReceive text git env stdin s.refs).1 = [] then
    Applied git commands (preReceive text git env stdin s.refs).2 refs'
    else refs' = (preReceive text git env stdin s.refs).2

/-- What can happen to a repository. The ids that a contents write and a branch delete expect may
have been read earlier; a refused write and one that loses a race change no ref. -/
inductive Step : Store → Store → Prop
  | push {s : Store} {env : HookEnv} {stdin : Except String Bytes} {raw : Bytes}
      {commands : List Command} {refs' : Refs}
      (h : Pushed text git defaultBranch rules env stdin raw commands s refs') :
      Step s { s with refs := refs' }
  | contents {s : Store} {w : Write} {old expected : Option String} {branches : List String}
      {full commit : String}
      (target : writeTarget text (s.info defaultBranch rules) w old branches = .ok (full, expected))
      (parents : git.parents commit = old.toList) (held : s.refs full = expected) :
      Step s { s with refs := Function.update s.refs full (some commit) }
  | merge {s : Store} {i : Forge.Intent String}
      (head : s.refs (branchRef i.headRef) = some i.headOid)
      (base : s.refs (branchRef i.baseRef) = some i.baseOid)
      (commit : git.parents i.mergeOid = [i.baseOid, i.headOid]) :
      Step s { s with refs := Function.update s.refs (branchRef i.baseRef) (some i.mergeOid) }
  | delete {s : Store} {opened : Except String (List OpenPull)} {branch : String}
      {tip : Option String} {refs' : Refs} (h : refs' = stateOf
        (deleteBranch text git (s.info defaultBranch rules) opened branch tip s.refs)) :
      Step s { s with refs := refs' }
  | database {s : Store} {live : Bool} {pulls : List OpenPull} :
      Step s { s with live := live, pulls := pulls }

/-! ## What one write keeps -/

/-- A ruled branch moves forward, and no name of the default branch goes. -/
structure Kept (refs refs' : Refs) : Prop where
  ruled : ∀ b, (forBranch text rules b).isSome → ∀ t, refs (branchRef b) = some t →
    ∃ t', refs' (branchRef b) = some t' ∧ Forge.Ancestor git.parents t t'
  default : ∀ b, sameBranchName text b defaultBranch = true → (refs (branchRef b)).isSome →
    (refs' (branchRef b)).isSome

end Writes

variable {text : Text} {git : Git} {defaultBranch : String} {rules : List Rule}
  {refs refs' refs'' : Refs}

namespace Kept

theorem of_eq (h : ∀ b, refs' (branchRef b) = refs (branchRef b)) :
    Kept text git defaultBranch rules refs refs' :=
  ⟨fun b _ t ht => ⟨t, by rw [h, ht], .refl⟩, fun b _ hb => by rwa [h]⟩

theorem trans (h : Kept text git defaultBranch rules refs refs')
    (h' : Kept text git defaultBranch rules refs' refs'') :
    Kept text git defaultBranch rules refs refs'' := by
  refine ⟨fun b hb t ht => ?_, fun b hb hs => h'.default b hb (h.default b hb hs)⟩
  obtain ⟨t', ht', hanc⟩ := h.ruled b hb t ht
  obtain ⟨t'', ht'', hanc'⟩ := h'.ruled b hb t' ht'
  exact ⟨t'', ht'', hanc.trans hanc'⟩

/-- One ref is written. -/
theorem update {name : String} {new : Option String} (h : ∀ b, name = branchRef b →
      ((forBranch text rules b).isSome → ∀ t, refs name = some t →
        ∃ t', new = some t' ∧ Forge.Ancestor git.parents t t') ∧
      (sameBranchName text b defaultBranch = true → new.isSome)) :
    Kept text git defaultBranch rules refs (Function.update refs name new) := by
  constructor
  · intro b hb t ht
    by_cases hname : branchRef b = name
    · rw [hname, Function.update_self]
      exact (h b hname.symm).1 hb t (hname ▸ ht)
    · exact ⟨t, by rw [Function.update_of_ne hname, ht], .refl⟩
  · intro b hb hs
    by_cases hname : branchRef b = name
    · rw [hname, Function.update_self]
      exact (h b hname.symm).2 hb
    · rwa [Function.update_of_ne hname]

end Kept

theorem retentionRef_ne_branchRef (n : Nat) (b : String) : retentionRef n ≠ branchRef b := by
  intro h
  have hchar : (retentionRef n).toList[5]? = (branchRef b).toList[5]? := by rw [h]
  have hforge : (toString "refs/forge/pull/").toList = "refs/forge/pull/".toList := rfl
  simp [retentionRef, branchRef, String.toList_append, hforge] at hchar

theorem Retained.branches {opened : List OpenPull} {heads : List (String × String)}
    (h : Retained opened heads refs refs') (b : String) :
    refs' (branchRef b) = refs (branchRef b) := by
  rcases h (branchRef b) with h | ⟨p, -, d, -, -, hname, -⟩
  · exact h
  · exact absurd hname.symm (retentionRef_ne_branchRef _ _)

/-! ## Pushes -/

/-- What the hook has made sure of before git carries out a command. -/
structure Allowed (text : Text) (git : Git) (defaultBranch : String) (rules : List Rule)
    (c : Command) : Prop where
  place : (∃ branch, c.name = branchRef branch ∧
    (isDelete c.new = true → sameBranchName text branch defaultBranch = false)) ∨
    startsWith c.name "refs/tags/" = true
  ruled : ∀ b, c.name = branchRef b → (forBranch text rules b).isSome →
    isDelete c.new = false ∧ (isDelete c.old = true ∨ Forge.Ancestor git.parents c.old c.new)

theorem hookIsFf_ok {env : HookEnv} {old new : String} (h : hookIsFf git env old new = .ok true) :
    Forge.Ancestor git.parents old new := by
  rw [hookIsFf] at h
  split_ifs at h
  rw [isFfIn] at h
  split_ifs at h
  obtain ⟨⟨⟩, -, h⟩ := bind_ok h
  exact git.isAncestor_sound old new h

theorem allowed_of_verdict {env : HookEnv} {c : Command} (hold : fullId c.old = true)
    (hnew : fullId c.new = true)
    (h : lineVerdict text defaultBranch rules (hookIsFf git env) c.line = .ok ()) :
    Allowed text git defaultBranch rules c := by
  obtain ⟨hupdate, hprot⟩ := lineVerdict_ok (fields_line (fullId_space hold) (fullId_space hnew)) h
  refine ⟨checkUpdate_ok hupdate, fun b hb hrule => ?_⟩
  obtain ⟨hdel, hff⟩ := checkProtectedPush_ok hrule (hprot b hb)
  exact ⟨hdel, hff.imp_right hookIsFf_ok⟩

theorem heldId_eq_some {oid t : String} (h : heldId oid = some t) :
    isDelete oid = false ∧ oid = t := by
  rw [heldId] at h
  split_ifs at h with hdel
  exact ⟨by simpa using hdel, Option.some.inj h⟩

theorem heldId_of_not_delete {oid : String} (h : isDelete oid = false) : heldId oid = some oid := by
  rw [heldId, h]
  rfl

namespace Applied

variable {cs : List Command}

theorem kept (h : Applied git cs refs refs') (hcs : ∀ c ∈ cs, fullId c.old = true →
      fullId c.new = true → Allowed text git defaultBranch rules c) :
    Kept text git defaultBranch rules refs refs' := by
  induction h with
  | nil => exact .of_eq (fun _ => rfl)
  | skip _ ih => exact ih (fun c hc => hcs c (List.mem_cons_of_mem _ hc))
  | @apply c cs refs refs' name old new held rest ih =>
    refine .trans (.update ?_) (ih (fun c hc => hcs c (List.mem_cons_of_mem _ hc)))
    have hallowed := hcs c List.mem_cons_self old new
    refine fun b hb => ⟨fun hrule t ht => ?_, fun hsame => ?_⟩
    · obtain ⟨hdel, hff⟩ := hallowed.ruled b hb hrule
      obtain ⟨hold, rfl⟩ := heldId_eq_some (held.symm.trans ht)
      refine ⟨c.new, heldId_of_not_delete hdel, hff.resolve_left ?_⟩
      rw [hold]
      exact Bool.false_ne_true
    · have hdel : isDelete c.new = false := by
        rcases hallowed.place with ⟨branch, hname, hkeep⟩ | htag
        · obtain rfl := branchRef_injective (hb.symm.trans hname)
          by_contra hd
          rw [hkeep (by simpa using hd)] at hsame
          cases hsame
        · obtain ⟨rest, htag⟩ := startsWith_iff.mp htag
          have hchar : (branchRef b).toList[5]? = ("refs/tags/" ++ rest).toList[5]? := by
            rw [← hb, htag]
          simp [branchRef, String.toList_append] at hchar
      rw [heldId_of_not_delete hdel]
      rfl

theorem elsewhere (h : Applied git cs refs refs') (hcs : ∀ c ∈ cs, fullId c.old = true →
      fullId c.new = true → Allowed text git defaultBranch rules c) {name : String}
    (hheads : startsWith name "refs/heads/" = false) (htags : startsWith name "refs/tags/" = false) :
    refs' name = refs name := by
  induction h with
  | nil => rfl
  | skip _ ih => exact ih (fun c hc => hcs c (List.mem_cons_of_mem _ hc))
  | @apply c cs refs refs' cname old new held rest ih =>
    rw [ih (fun c hc => hcs c (List.mem_cons_of_mem _ hc))]
    refine Function.update_of_ne ?_ _ _
    rintro rfl
    rcases (hcs c List.mem_cons_self old new).place with ⟨branch, hname, -⟩ | htag
    · rw [startsWith_iff.mpr ⟨branch, hname⟩] at hheads
      cases hheads
    · rw [htag] at htags
      cases htags

end Applied

namespace Pushed

variable {env : HookEnv} {stdin : Except String Bytes} {raw : Bytes} {commands : List Command}
  {s : Store}

/-- The hook has kept heads, and git carries out allowed commands only. -/
theorem parts (h : Pushed text git defaultBranch rules env stdin raw commands s refs') :
    ∃ heads refs₁, (∀ d ∈ heads, ∃ l, utf8 l ∈ raw.splitOn 10 ∧ deletedHead l = some d) ∧
      Retained s.pulls heads s.refs refs₁ ∧ (refs' = refs₁ ∨ Applied git commands refs₁ refs' ∧
        ∀ c ∈ commands, fullId c.old = true → fullId c.new = true →
          Allowed text git defaultBranch rules c) := by
  have hrefs := h.refs
  rcases preReceive_cases text git env stdin s.refs with
    ⟨refusals, hne, hrun⟩ | ⟨lines, info, hread, hlook, hok, hrun⟩
  · rw [hrun, if_neg hne] at hrefs
    exact ⟨[], s.refs, fun d hd => absurd hd List.not_mem_nil, .refl _ _ _, .inl hrefs⟩
  · obtain rfl := h.answers.lookup info hlook
    obtain ⟨r, hr⟩ : ∃ r, stdin = .ok r := by
      cases stdin with
      | error e => cases hread
      | ok r => exact ⟨r, rfl⟩
    obtain rfl := h.read r hr
    subst hr
    obtain ⟨opened, hopened, hret⟩ := retainDeletedHeads_retained git env lines s.refs
    rw [← hrun] at hret
    refine ⟨lines.filterMap deletedHead, (preReceive text git env (.ok r) s.refs).2,
      fun d hd => ?_, fun name => ?_, ?_⟩
    · obtain ⟨l, hl, hdel⟩ := List.mem_filterMap.mp hd
      obtain ⟨bytes, hbytes, hdec⟩ := (mem_of_mapM_ok hread l).mp hl
      exact ⟨l, decodeLine_ok.mp hdec ▸ (List.mem_filter.mp hbytes).1, hdel⟩
    · refine (hret name).imp_right ?_
      rintro ⟨p, hp, hrest⟩
      rcases hopened with hopened | rfl
      · exact ⟨p, h.answers.openPulls _ hopened ▸ hp, hrest⟩
      · cases hp
    · split_ifs at hrefs with hnil
      · refine .inr ⟨hrefs, fun c hc hold hnew => ?_⟩
        refine allowed_of_verdict hold hnew (hok c.line (mem_readUpdates hread ?_ (h.sent c hc)))
        intro hempty
        have hfields : fields (c.old ++ " " ++ c.new ++ " " ++ c.name) =
            some (c.old, c.new, c.name) := fields_line (fullId_space hold) (fullId_space hnew)
        rw [show c.old ++ " " ++ c.new ++ " " ++ c.name = "" from hempty] at hfields
        cases hfields
      · exact .inl hrefs

theorem kept (h : Pushed text git defaultBranch rules env stdin raw commands s refs') :
    Kept text git defaultBranch rules s.refs refs' := by
  obtain ⟨heads, refs₁, -, hret, rfl | ⟨happ, hallowed⟩⟩ := h.parts
  · exact .of_eq hret.branches
  · exact .trans (.of_eq hret.branches) (happ.kept hallowed)

/-- Outside branches and tags a push writes no ref but those of the heads that it deletes. -/
theorem elsewhere (h : Pushed text git defaultBranch rules env stdin raw commands s refs')
    {name : String} (hheads : startsWith name "refs/heads/" = false)
    (htags : startsWith name "refs/tags/" = false) :
    refs' name = s.refs name ∨ ∃ p ∈ s.pulls, ∃ l tip, utf8 l ∈ raw.splitOn 10 ∧
      deletedHead l = some (tip, p.headRef) ∧ name = retentionRef p.number ∧
      refs' name = some tip := by
  obtain ⟨heads, refs₁, hsent, hret, hgit⟩ := h.parts
  have heq : refs' name = refs₁ name := by
    rcases hgit with rfl | ⟨happ, hallowed⟩
    · rfl
    · exact happ.elsewhere hallowed hheads htags
  rw [heq]
  refine (hret name).imp_right ?_
  rintro ⟨p, hp, d, hd, hhead, hname, hval⟩
  obtain ⟨l, hl, hdel⟩ := hsent d hd
  exact ⟨p, hp, l, d.1, hl, by rw [hdel, hhead], hname, hval⟩

theorem refused (h : Pushed text git defaultBranch rules env stdin raw commands s refs')
    (hline : LineRefused text git env stdin) : refs' = s.refs := by
  obtain ⟨refusals, hne, hrun⟩ := preReceive_refused hline s.refs
  have hrefs := h.refs
  rwa [hrun, if_neg hne] at hrefs

end Pushed

/-! ## The other writes, and runs -/

theorem writeTarget_ok {info : RepoInfo} {w : Write} {old expected : Option String}
    {branches : List String} {full : String}
    (h : writeTarget text info w old branches = .ok (full, expected)) :
    expected = none ∨ expected = old := by
  unfold writeTarget at h
  simp only at h
  split at h
  · cases h
  split_ifs at h with hgone hcreating
  · repeat' split at h
    all_goals cases h
    exact .inl rfl
  · repeat' split at h
    all_goals cases h
    exact .inr rfl

theorem retainForBranch_branches (git : Git) (opened : Except String (List OpenPull))
    (branch oid : String) (refs : Refs) : Preserves (fun refs' => ∀ b, refs' (branchRef b) = refs (branchRef b))
      (retainForBranch git opened branch oid) := by
  unfold retainForBranch
  cases opened with
  | error e => exact .throw _
  | ok ps =>
    refine .forM (fun p _ => .ite (fun refs' h => ?_) (.pure ()))
    rw [retain]
    cases git.accepts refs' (retentionRef p.number) (some oid) with
    | error e => exact h
    | ok u =>
      intro b
      rw [Function.update_of_ne (retentionRef_ne_branchRef _ _).symm]
      exact h b

/-- A branch goes only where no rule covers it and it is no name of the default branch. -/
theorem deleteBranch_kept {s : Store} {opened : Except String (List OpenPull)} {branch : String}
    {tip : Option String} (refs : Refs) : Kept text git defaultBranch rules refs (stateOf
      (deleteBranch text git (s.info defaultBranch rules) opened branch tip refs)) := by
  have hsame : Kept text git defaultBranch rules refs refs := .of_eq (fun _ => rfl)
  unfold deleteBranch
  split_ifs with hlive hdefault
  · exact hsame
  · exact hsame
  · cases hcheck : checkBranchDelete text (s.info defaultBranch rules).rules branch with
    | error e => exact hsame
    | ok u =>
      cases tip with
      | none => exact hsame
      | some tip =>
        have hpres := retainForBranch_branches git opened branch tip refs refs (fun _ => rfl)
        simp only
        change Kept text git defaultBranch rules refs (stateOf (EStateM.bind
          (EStateM.adaptExcept DeleteError.gitFailed (retainForBranch git opened branch tip)) _ refs))
        rw [EStateM.bind, EStateM.adaptExcept]
        cases hrun : retainForBranch git opened branch tip refs with
        | error e refs₁ =>
          rw [hrun] at hpres
          exact .of_eq hpres
        | ok u refs₁ =>
          rw [hrun] at hpres
          refine .trans (.of_eq hpres) ?_
          simp only [deleteRef]
          split_ifs with hgone
          · refine .update (fun b hb => ?_)
            obtain rfl := branchRef_injective hb
            constructor
            · intro hrule
              obtain ⟨rule, hr⟩ := Option.isSome_iff_exists.mp hrule
              rw [checkBranchDelete] at hcheck
              simp only [Store.info, hr] at hcheck
              cases hcheck
            · intro hname
              rw [sameBranchName, decide_eq_true_eq] at hname
              exact absurd (decide_eq_true hname.symm) hdefault
          · exact .of_eq (fun _ => rfl)

theorem Step.kept {s s' : Store} (h : Step text git defaultBranch rules s s') :
    Kept text git defaultBranch rules s.refs s'.refs := by
  cases h with
  | push h => exact h.kept
  | contents target parents held =>
    refine .update (fun b _ => ⟨fun _ t ht => ?_, fun _ => rfl⟩)
    refine ⟨_, rfl, .single ?_⟩
    rw [held] at ht
    rcases writeTarget_ok target with rfl | rfl
    · cases ht
    · rw [parents, ht]
      exact List.mem_singleton_self t
  | merge head base commit =>
    refine .update (fun b _ => ⟨fun _ t ht => ?_, fun _ => rfl⟩)
    obtain rfl := Option.some.inj (base.symm.trans ht)
    exact ⟨_, rfl, .single (by rw [commit]; exact List.mem_cons_self)⟩
  | delete h =>
    rw [h]
    exact deleteBranch_kept _
  | database => exact .of_eq (fun _ => rfl)

theorem kept_of_run {s s' : Store}
    (h : Relation.ReflTransGen (Step text git defaultBranch rules) s s') :
    Kept text git defaultBranch rules s.refs s'.refs := by
  induction h with
  | refl => exact .of_eq (fun _ => rfl)
  | tail _ hstep ih => exact ih.trans hstep.kept

/-- Over every run a ruled branch only moves forward and no name of the default branch goes; a
push writes refs outside branches and tags only to keep the heads that it deletes, and none when
a line is refused. -/
theorem ruled_branches_kept (text : Text) (git : Git) (defaultBranch : String)
    (rules : List Rule) :
    (∀ s s', Relation.ReflTransGen (Step text git defaultBranch rules) s s' →
      (∀ b, (forBranch text rules b).isSome → ∀ t, s.refs (branchRef b) = some t →
        ∃ t', s'.refs (branchRef b) = some t' ∧ Forge.Ancestor git.parents t t') ∧
      ∀ b, sameBranchName text b defaultBranch = true → (s.refs (branchRef b)).isSome →
        (s'.refs (branchRef b)).isSome) ∧
    ∀ env stdin raw commands s refs',
      Pushed text git defaultBranch rules env stdin raw commands s refs' →
      (∀ name, startsWith name "refs/heads/" = false → startsWith name "refs/tags/" = false →
        refs' name = s.refs name ∨ ∃ p ∈ s.pulls, ∃ l tip, utf8 l ∈ raw.splitOn 10 ∧
          deletedHead l = some (tip, p.headRef) ∧ name = retentionRef p.number ∧
          refs' name = some tip) ∧
      (LineRefused text git env stdin → refs' = s.refs) := by
  refine ⟨fun s s' h => ?_, fun env stdin raw commands s refs' h => ⟨fun name hheads htags => ?_,
    h.refused⟩⟩
  · have hkept := kept_of_run h
    exact ⟨hkept.ruled, hkept.default⟩
  · exact h.elsewhere hheads htags

/-! ## A deleted head -/

def tipId : String := "1111111111111111111111111111111111111111"

def deleteLine : Command := ⟨tipId, "0000000000000000000000000000000000000000", "refs/heads/f"⟩

def plainText : Text := ⟨id, id⟩

def plainGit : Git :=
  { parents := fun _ => []
    isAncestor := fun _ _ => .ok false
    wellFormed := fun _ => true
    accepts := fun _ _ _ => .ok ()
    isAncestor_sound := fun _ _ h => by cases h }

def headStore : Store :=
  ⟨fun name => if name = "refs/heads/f" then some tipId else none, true, [⟨1, "f"⟩]⟩

def headEnv : HookEnv := ⟨true, true, .ok (), .ok ⟨"main", true, []⟩, .ok [⟨1, "f"⟩]⟩

/-- A push that every line of the policy lets through keeps the heads it deletes. -/
theorem preReceive_retains {text : Text} {git : Git} {env : HookEnv} {stdin : Except String Bytes}
    {refs refs' : Refs} {lines : List String} {info : RepoInfo} (hvars : env.vars = true)
    (hread : readUpdates stdin = .ok lines) (hinfo : env.lookup = .ok info)
    (hdecide : decidePush text lines info.defaultBranch info.live info.rules
      (hookIsFf git env) = [])
    (hretain : retainDeletedHeads git env lines refs = .ok () refs') :
    preReceive text git env stdin refs = ([], refs') := by
  have hset : ¬env.vars = false := by rw [hvars]; decide
  rw [preReceive, if_neg hset, hread, hinfo]
  simp only [hdecide, hretain]

/-- A push that deletes the head of an open pull request creates a ref outside branches and
tags. -/
theorem push_creates_retention_ref : ∃ refs',
    Pushed plainText plainGit "main" [] headEnv (.ok (utf8 deleteLine.line)) (utf8 deleteLine.line)
      [deleteLine] headStore refs' ∧
    startsWith (retentionRef 1) "refs/heads/" = false ∧
    startsWith (retentionRef 1) "refs/tags/" = false ∧
    headStore.refs (retentionRef 1) = none ∧ refs' (retentionRef 1) = some tipId := by
  have hsplit : (utf8 deleteLine.line).splitOn 10 = [utf8 deleteLine.line] :=
    List.splitOn_eq_singleton (by decide +kernel)
  have hread : readUpdates (.ok (utf8 deleteLine.line)) = .ok [deleteLine.line] := by
    rw [readUpdates, hsplit, List.filter_cons_of_pos (by decide +kernel), List.filter_nil,
      List.mapM_cons, decodeLine_ok.mpr rfl]
    rfl
  have hfields : fields deleteLine.line = some (deleteLine.old, deleteLine.new, deleteLine.name) :=
    fields_line (by decide) (by decide)
  have hdecide : decidePush plainText [deleteLine.line] "main" true [] (hookIsFf plainGit headEnv) =
      [] := by
    rw [decidePush, if_pos rfl, List.filterMap_cons, lineVerdict, hfields]
    rfl
  have hretain : retainDeletedHeads plainGit headEnv [deleteLine.line] headStore.refs =
      .ok () (Function.update headStore.refs (retentionRef 1) (some tipId)) := by
    rw [retainDeletedHeads, List.filterMap_cons, deletedHead, hfields]
    rfl
  have hrun : preReceive plainText plainGit headEnv (.ok (utf8 deleteLine.line)) headStore.refs =
      ([], Function.update headStore.refs (retentionRef 1) (some tipId)) :=
    preReceive_retains rfl hread rfl hdecide hretain
  refine ⟨Function.update (Function.update headStore.refs (retentionRef 1) (some tipId))
    "refs/heads/f" none, ⟨⟨fun info h => ?_, fun ps h => ?_⟩, fun r h => ?_, fun c hc => ?_, ?_⟩,
    by decide, by decide, by decide, ?_⟩
  · cases h
    rfl
  · cases h
    rfl
  · cases h
    rfl
  · rw [List.mem_singleton] at hc
    rw [hc, hsplit]
    exact List.mem_singleton_self _
  · rw [hrun, if_pos rfl]
    exact .apply rfl (by decide) (by decide) (by decide) .nil
  · rw [Function.update_of_ne (by decide), Function.update_self]

end SrcControl.RefPolicy
