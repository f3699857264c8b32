import SrcControl.Forge.ContentWrite
import SrcControl.Lib.Rises

/-!
# What a contents write answers

A round that passes its checks makes a commit whose tree differs from the base commit's in one
path, and a round that is refused stores nothing. Over all rounds, and whatever others do to the
refs meanwhile, a reported success means that the commit has entered the branch. As long as nobody
takes a commit of the write off the branch again it has entered exactly once, and no other round
has left anything there.
-/

namespace SrcControl.ContentWrite

open GitTrees GitWrite Fallible Rises
open RefPolicy (Verb branchRef collides)

/-! ## One round -/

section Round

variable {R : Type} {git : Plumbing R} {identity : Identity} {w : Write} {r r' : R}

theorem adaptExcept_ok {ε ε' σ α : Type} {f : ε → ε'} {m : EStateM ε σ α} {s s' : σ} {a : α}
    (h : EStateM.adaptExcept f m s = .ok a s') : m s = .ok a s' := by
  unfold EStateM.adaptExcept at h
  cases hm : m s with
  | ok b t =>
    rw [hm] at h
    cases h
    rfl
  | error e t =>
    rw [hm] at h
    cases h

theorem adaptExcept_error {ε ε' σ α : Type} {f : ε → ε'} {m : EStateM ε σ α} {s s' : σ} {e : ε'}
    (h : EStateM.adaptExcept f m s = .error e s') : ∃ e', e = f e' := by
  unfold EStateM.adaptExcept at h
  cases hm : m s with
  | ok b t =>
    rw [hm] at h
    cases h
  | error e' t =>
    rw [hm] at h
    cases h
    exact ⟨e', rfl⟩

theorem orFail_ok {ε α : Type} {f : ε → Stop} {x : Except ε α} {a : α}
    (h : (orFail f x : EStateM Stop R α) r = .ok a r') : x = .ok a ∧ r' = r := by
  cases x with
  | ok b =>
    cases h
    exact ⟨rfl, rfl⟩
  | error e => cases h

theorem orFail_error {ε α : Type} {f : ε → Stop} {x : Except ε α} {a : Stop}
    (h : (orFail f x : EStateM Stop R α) r = .error a r') : (∃ e, a = f e) ∧ r' = r := by
  cases x with
  | ok b => cases h
  | error e =>
    cases h
    exact ⟨⟨e, rfl⟩, rfl⟩

theorem rootTree_ok (hg : git.Lawful) {old root : Option String}
    (h : rootTree git old r = .ok root r') : r' = r ∧ root = old.bind git.root := by
  cases old with
  | none =>
    cases h
    exact ⟨rfl, rfl⟩
  | some o =>
    unfold rootTree at h
    obtain ⟨r₁, s₁, hget, h⟩ := state_bind_ok h
    cases hget
    obtain ⟨t, s₂, hread, h⟩ := state_bind_ok h
    obtain ⟨hread, rfl⟩ := orFail_ok hread
    cases t with
    | none => cases h
    | some t =>
      cases h
      exact ⟨rfl, (hg.commitRoot hread).symm⟩

theorem rootTree_error {old : Option String} {a : Stop} (h : rootTree git old r = .error a r') :
    ∀ why, a ≠ .refused why := by
  rintro why rfl
  cases old with
  | none => cases h
  | some o =>
    unfold rootTree at h
    rcases state_bind_error h with hget | ⟨r₁, s₁, hget, h⟩
    · cases hget
    · cases hget
      rcases state_bind_error h with hread | ⟨t, s₂, hread, h⟩
      · obtain ⟨⟨e, he⟩, -⟩ := orFail_error hread
        cases he
      · cases t <;> cases h

/-- An id that `hash-object` has given the content. -/
def IsBlob (git : Plumbing R) (bytes : Bytes) (oid : String) : Prop :=
  ∃ r out r', git.hashObject bytes r = .ok out r' ∧ printed out = oid

/-- The content id that a round takes over from the rounds before. -/
structure Carried (git : Plumbing R) (w : Write) (blob : Option String) : Prop where
  isBlob : ∀ b ∈ blob, IsBlob git w.bytes b
  delete : w.verb = .delete → blob = none

theorem carried_none : Carried git w none := ⟨by simp, fun _ => rfl⟩

theorem IsBlob.token (hg : git.Lawful) {bytes : Bytes} {oid : String} (h : IsBlob git bytes oid) :
    Token oid := by
  obtain ⟨r, out, r', hrun, rfl⟩ := h
  exact hg.hashObject_id hrun

theorem storeBlob_ok (hg : git.Lawful) {blob blob' : Option String} (hc : Carried git w blob)
    (h : storeBlob git w blob r = .ok blob' r') :
    Keeps (git.trees r) (git.trees r') ∧ Carried git w blob' ∧
      (w.verb ≠ .delete → blob'.isSome) := by
  unfold storeBlob at h
  split_ifs at h with hnew
  · simp only [Bool.and_eq_true, decide_eq_true_eq] at hnew
    obtain ⟨out, r₁, hrun, h⟩ := state_bind_ok h
    cases h
    have hhash := adaptExcept_ok hrun
    refine ⟨hg.hashObject_keeps hhash, ⟨?_, fun hd => absurd hd hnew.2⟩, fun _ => rfl⟩
    intro b hb
    cases hb
    exact ⟨_, _, _, hhash, rfl⟩
  · cases h
    refine ⟨.refl _, hc, fun hd => ?_⟩
    simp only [Bool.and_eq_true, decide_eq_true_eq, not_and, not_not] at hnew
    cases blob with
    | none => exact absurd (hnew rfl) hd
    | some b => rfl

theorem comps_ne_nil (w : Write) : w.comps ≠ [] := SlashPath.split_ne_nil w.path

theorem comps_nul (w : Write) {c : String} (hc : c ∈ w.comps) : 0 ∉ bytesOf c :=
  split_writePathOk w.path_ok hc

/-- What the operation asks of the entry that was at the path, and which mode it leaves there. -/
def Allows (before : Option Entry) (b : Built) : Op → Prop
  | .create => before = none ∧ b.mode = "100644" ∧ b.blob.isSome
  | .update given => ∃ e, before = some e ∧ IsFile given e ∧ b.mode = e.mode ∧ b.blob.isSome
  | .delete given => ∃ e, before = some e ∧ IsFile given e ∧ b.blob = none

/-- The commit of a round: it follows `old`, and its tree is that of `old` with the file created,
replaced in its mode, or removed. -/
structure Written (git : Plumbing R) (w : Write) (op : Op) (old : Option String) (b : Built)
    (trees : Trees) : Prop where
  parents : git.parents b.commit = old.toList
  root : git.root b.commit = some b.tree
  blob : ∀ x ∈ b.blob, IsBlob git w.bytes x
  allowed :
    Allows (entryAt trees (rootEntries trees (old.bind git.root)) (w.comps.map bytesOf)) b op
  changed : ∃ l, trees b.tree = some l ∧
    Changed trees (rootEntries trees (old.bind git.root)) l.entries (w.comps.map bytesOf)
      (fileEntry w.comps (b.blob.map (fun x => (b.mode, x))))

theorem op_delete_iff {op : Op} (hop : w.op = some op) :
    w.verb = .delete ↔ ∃ given, op = .delete given := by
  unfold Write.op at hop
  cases hv : w.verb <;> cases hsha : w.sha <;> simp [hv, hsha] at hop <;> simp [← hop]

/-- An accepted check allows what the round then stores. -/
theorem check_allows {op : Op} (hop : w.op = some op) {walked : Walk} {prev : Option String}
    (h : check op w.comps walked = .ok prev) {b : Built} (hmode : b.mode = prev.getD "100644")
    (hsome : w.verb ≠ .delete → b.blob.isSome) (hnone : w.verb = .delete → b.blob = none) :
    Allows (walked.leaf w.comps) b op := by
  have hiff := op_delete_iff hop
  obtain ⟨-, ⟨rfl, hl, rfl⟩ | ⟨given, e, rfl | rfl, hl, hfile, rfl⟩⟩ := check_ok h
  · exact ⟨hl, hmode, hsome (fun hd => by simpa using hiff.mp hd)⟩
  · exact ⟨e, hl, hfile, hmode, hsome (fun hd => by simpa using hiff.mp hd)⟩
  · exact ⟨e, hl, hfile, hnone (hiff.mpr ⟨given, rfl⟩)⟩

theorem token_mode {prev : Option String} {op : Op} {walked : Walk}
    (h : check op w.comps walked = .ok prev) : Token (prev.getD "100644") := by
  have hplain : Token "100644" := ⟨by decide, by decide, by decide⟩
  have hexec : Token "100755" := ⟨by decide, by decide, by decide⟩
  obtain ⟨-, ⟨-, -, rfl⟩ | ⟨given, e, -, -, hfile, rfl⟩⟩ := check_ok h
  · exact hplain
  · rcases hfile.mode with hreg | hreg
    · simpa [hreg] using hplain
    · simpa [hreg] using hexec

/-- The leaf that the check accepts is no directory. -/
theorem leaf_of_check {prev : Option String} {op : Op} {walked : Walk}
    (h : check op w.comps walked = .ok prev) {e : Entry} (he : walked.leaf w.comps = some e) :
    e.kind ≠ "tree" := by
  obtain ⟨-, ⟨-, hl, -⟩ | ⟨given, e', -, hl, hfile, -⟩⟩ := check_ok h
  · rw [hl] at he
    cases he
  · rw [hl] at he
    cases he
    rw [hfile.kind]
    decide

theorem buildCommit_written (hg : git.Lawful) {op : Op} (hop : w.op = some op)
    {old blob : Option String} (hc : Carried git w blob) {b : Built}
    (h : buildCommit git identity w op old blob r = .ok b r') :
    Keeps (git.trees r) (git.trees r') ∧ Carried git w b.blob ∧
      ∀ later, Keeps (git.trees r') later → Written git w op old b later := by
  unfold buildCommit at h
  obtain ⟨root, s₁, hroot, h₁⟩ := state_bind_ok h
  obtain ⟨rfl, rfl⟩ := rootTree_ok hg hroot
  obtain ⟨r₁, s₂, hget, h₂⟩ := state_bind_ok h₁
  cases hget
  obtain ⟨found, s₃, hwalk, h₃⟩ := state_bind_ok h₂
  obtain ⟨hfound, rfl⟩ := orFail_ok hwalk
  obtain ⟨prev, s₄, hcheck, h₄⟩ := state_bind_ok h₃
  obtain ⟨hprev, rfl⟩ := orFail_ok hcheck
  obtain ⟨stored, s₅, hstore, h₅⟩ := state_bind_ok h₄
  obtain ⟨hkeep₁, hc', hsome⟩ := storeBlob_ok hg hc hstore
  obtain ⟨tree, s₆, htree, h₆⟩ := state_bind_ok h₅
  obtain ⟨out, s₇, hcommit, h₇⟩ := state_bind_ok h₆
  cases h₇
  have hrebuilt := adaptExcept_ok htree
  have hmade := adaptExcept_ok hcommit
  have hwalked := (walk_walked hg (comps_ne_nil w) hfound (check_ok hprev).1).keeps hkeep₁
  have hfile : ∀ f ∈ stored.map (fun x => (prev.getD "100644", x)), Token f.1 ∧ Token f.2 := by
    intro f hf
    cases stored with
    | none => cases hf
    | some x =>
      cases hf
      exact ⟨token_mode hprev, (hc'.isBlob x rfl).token hg⟩
  obtain ⟨hkeep₂, hchanged⟩ := rebuild_changed hg hfile (comps_ne_nil w)
    (fun c hc => comps_nul w hc) hwalked
    (fun e he => leaf_of_check hprev (hwalked.leaf.trans he)) hrebuilt
  have hkeep₃ := hg.commitTree_keeps hmade
  obtain ⟨hparents, hroot'⟩ := hg.commitTree hmade
  refine ⟨hkeep₁.trans (hkeep₂.trans hkeep₃), hc', fun later hk => ⟨hparents, hroot',
    hc'.isBlob, ?_, hchanged later (hkeep₃.trans hk)⟩⟩
  rw [← (hwalked.keeps (hkeep₂.trans (hkeep₃.trans hk))).leaf]
  exact check_allows hop hprev rfl hsome hc'.delete

/-- A refused round has stored nothing. -/
theorem buildCommit_refused {op : Op} {old blob : Option String} {why : Refuse}
    (h : buildCommit git identity w op old blob r = .error (.refused why) r') : r' = r := by
  unfold buildCommit at h
  rcases state_bind_error h with hroot | ⟨root, s₁, hroot, h₁⟩
  · exact absurd rfl (rootTree_error hroot why)
  have hs₁ : s₁ = r := by
    cases old with
    | none =>
      cases hroot
      rfl
    | some o =>
      unfold rootTree at hroot
      obtain ⟨r₁, t₁, hget, hroot⟩ := state_bind_ok hroot
      cases hget
      obtain ⟨t, t₂, hread, hroot⟩ := state_bind_ok hroot
      obtain ⟨-, rfl⟩ := orFail_ok hread
      cases t <;> cases hroot
      rfl
  subst hs₁
  rcases state_bind_error h₁ with hget | ⟨r₁, s₂, hget, h₂⟩
  · cases hget
  cases hget
  rcases state_bind_error h₂ with hwalk | ⟨found, s₃, hwalk, h₃⟩
  · exact (orFail_error hwalk).2
  obtain ⟨-, rfl⟩ := orFail_ok hwalk
  rcases state_bind_error h₃ with hcheck | ⟨prev, s₄, hcheck, h₄⟩
  · exact (orFail_error hcheck).2
  obtain ⟨-, rfl⟩ := orFail_ok hcheck
  rcases state_bind_error h₄ with hstore | ⟨stored, s₅, hstore, h₅⟩
  · unfold storeBlob at hstore
    split_ifs at hstore
    · rcases state_bind_error hstore with hrun | ⟨out, s₅, hrun, hstore⟩
      · obtain ⟨e, he⟩ := adaptExcept_error hrun
        cases he
      · cases hstore
    · cases hstore
  rcases state_bind_error h₅ with htree | ⟨tree, s₆, htree, h₆⟩
  · obtain ⟨e, he⟩ := adaptExcept_error htree
    cases he
  rcases state_bind_error h₆ with hcommit | ⟨out, s₇, hcommit, h₇⟩
  · obtain ⟨e, he⟩ := adaptExcept_error hcommit
    cases he
  · cases h₇

end Round

/-! ## Names and refs -/

theorem collides_none {names : List String} {n : String} (h : collides names n = none) :
    n ∉ names := by
  induction names with
  | nil => simp
  | cons m names ih =>
    rw [collides] at h
    split_ifs at h with hm hs
    intro hmem
    rcases List.mem_cons.mp hmem with rfl | hmem
    · exact hm rfl
    · exact ih h hmem

section Refs

variable {defaultBranch : String} {w : Write}

/-- Whatever the write reads first, the ref that moves is that of the target branch. -/
theorem full_eq (old : Option String) :
    w.full defaultBranch old = branchRef (w.target defaultBranch) := by
  unfold Write.full
  split_ifs with hc
  · rfl
  · have hfresh : w.fresh defaultBranch = none := by
      simp only [Write.creating, Bool.or_eq_true, not_or, Option.isSome_iff_ne_none] at hc
      exact not_not.mp hc.1
    rw [Write.target, hfresh, Option.getD_none]

end Refs

/-! ## The rounds -/

section Run

variable {R : Type} (git : Plumbing R) (identity : Identity) (defaultBranch : String) (w : Write)
  (op : Op)

/-- The commit is in the history of a branch with this tip. -/
def InBranch (commit : String) (tip : Option String) : Prop :=
  ∃ t, tip = some t ∧ Forge.Ancestor git.parents commit t

/-- Nobody has taken a commit of the write off the branch again. -/
def NotTakenOff (c : Config R) : Prop := ∀ commit ∈ c.made, Stays (InBranch git commit) c.tips

/-- The target branch has had a tip that does not contain the commit. -/
def Absent (commit : String) (tips : List (Option String)) : Prop :=
  ∃ x ∈ tips, ¬ InBranch git commit x

/-- The branch was read with `old` at its tip, or as missing when the write creates it. -/
def Began (old : Option String) (tips : List (Option String)) : Prop :=
  (if (w.fresh defaultBranch).isNone then old else none) ∈ tips

/-- What holds of the commit of a round from when it is made. -/
structure Made (trees : Trees) (made : List String) (old : Option String) (b : Built) : Prop where
  made : b.commit ∈ made
  carried : Carried git w b.blob
  written : ∀ later, Keeps trees later → Written git w op old b later

/-- The commit entered the branch after it had not been there. -/
def Rose (commit : String) (tips : List (Option String)) : Prop :=
  ∃ recent tip past, tips = recent ++ tip :: past ∧ InBranch git commit tip ∧
    Absent git commit past

/-- What holds between two commands, whatever has happened to the refs. -/
def PhaseInv (c : Config R) : Prop :=
  match c.phase with
  | .top k => Carried git w k.blob
  | .based k old => Carried git w k.blob ∧ ((w.fresh defaultBranch).isNone → old ∈ c.tips)
  | .clear k old => Carried git w k.blob ∧ Began defaultBranch w old c.tips
  | .built _ old b =>
    Made git w op (git.trees c.world.repo) c.made old b ∧ Absent git b.commit c.tips
  | .failed _ old b _ =>
    Made git w op (git.trees c.world.repo) c.made old b ∧ Absent git b.commit c.tips
  | .seen _ old b _ now => Made git w op (git.trees c.world.repo) c.made old b ∧
      ∃ recent past, c.tips = recent ++ now :: past ∧ Absent git b.commit past
  | .answered (.published b old) =>
    Made git w op (git.trees c.world.repo) c.made old b ∧ Rose git b.commit c.tips
  | .answered _ => True

/-- What the updates of the write have put on the branch, as long as nobody takes it off. -/
def LandedInv (c : Config R) : Prop :=
  match c.phase with
  | .failed _ _ b _ => c.landed = [] ∨ (c.landed = [b.commit] ∧ some b.commit ∈ c.tips)
  | .seen _ _ b _ now => c.landed = [] ∨ (c.landed = [b.commit] ∧ InBranch git b.commit now)
  | .answered (.published b _) => c.landed = [] ∨ c.landed = [b.commit]
  | .answered (.stopped (.readFailed _)) => True
  | _ => c.landed = []

variable {git identity defaultBranch w op}

theorem Began.absent (hg : git.Lawful) {old : Option String} {tips : List (Option String)}
    {commit : String} (h : Began defaultBranch w old tips)
    (hparents : git.parents commit = old.toList) : Absent git commit tips := by
  refine ⟨_, h, ?_⟩
  rintro ⟨t, ht, hanc⟩
  split_ifs at ht
  subst ht
  exact hg.acyclic (a := t) (b := commit) (by simp [hparents]) hanc

theorem Absent.cons {commit : String} {tips : List (Option String)} (h : Absent git commit tips)
    (tip : Option String) : Absent git commit (tip :: tips) := by
  obtain ⟨x, hx, hno⟩ := h
  exact ⟨x, List.mem_cons_of_mem _ hx, hno⟩

theorem Rose.cons {commit : String} {tips : List (Option String)} (h : Rose git commit tips)
    (tip : Option String) : Rose git commit (tip :: tips) := by
  obtain ⟨recent, x, past, rfl, hin, habs⟩ := h
  exact ⟨tip :: recent, x, past, rfl, hin, habs⟩

theorem inBranch_self (commit : String) : InBranch git commit (some commit) :=
  ⟨commit, rfl, .refl⟩

theorem not_inBranch_none (commit : String) : ¬ InBranch git commit none := by
  rintro ⟨t, ht, -⟩
  cases ht

/-- The condition looks back only. -/
theorem NotTakenOff.before {c : Config R} {mark : Mark} {s : World R} {p : Phase}
    (h : NotTakenOff git (remember defaultBranch w c mark s p)) : NotTakenOff git c := by
  intro commit hc
  have hmade : commit ∈ (remember defaultBranch w c mark s p).made := by
    cases mark with
    | made x => exact List.mem_cons_of_mem _ hc
    | _ => exact hc
  exact (h commit hmade).of_suffix (List.suffix_cons _ _)

theorem Made.keeps {trees trees' : Trees} {made : List String} {old : Option String} {b : Built}
    (h : Made git w op trees made old b) (hk : Keeps trees trees') :
    Made git w op trees' made old b :=
  ⟨h.made, h.carried, fun later hl => h.written later (hk.trans hl)⟩

theorem classify_done_iff {expectedOld : Option String} {bootstrap : Bool} {new : String}
    {now : Option String} {stderr : String} :
    classify expectedOld bootstrap new now stderr = .done ↔ now = some new := by
  unfold classify
  constructor
  · intro h
    by_contra hne
    rw [if_neg hne] at h
    revert h
    cases expectedOld <;> cases now <;> dsimp only
    all_goals repeat' split
    all_goals simp
  · intro h
    rw [if_pos h]

/-- After a failed update the write succeeds when the tip that was read contains its commit; in
every other case it goes on to the next round or answers with an error. -/
theorem afterFailure_cases (k : Rounds) (old : Option String) (b : Built) (stderr : String)
    (now : Option String) (landed : Bool) :
    ((if landed then some b.commit else now) = some b.commit ∧
      afterFailure defaultBranch w k old b stderr now landed = .answered (.published b old)) ∨
    ((if landed then some b.commit else now) ≠ some b.commit ∧
      ((∃ locked, afterFailure defaultBranch w k old b stderr now landed =
        .top ⟨k.attempt + 1, locked, b.blob⟩) ∨
      ∃ a, afterFailure defaultBranch w k old b stderr now landed = .answered a ∧
        ∀ b' old', a ≠ .published b' old')) := by
  have hiff := @classify_done_iff (w.expected defaultBranch old) (w.bootstrap defaultBranch old)
    b.commit (if landed then some b.commit else now) stderr
  unfold afterFailure
  dsimp only
  cases hclass : classify (w.expected defaultBranch old) (w.bootstrap defaultBranch old) b.commit
    (if landed then some b.commit else now) stderr with
  | done => exact .inl ⟨hiff.mp hclass, rfl⟩
  | lost => exact .inr ⟨fun h => by simp [hiff.mpr h] at hclass, .inl ⟨_, rfl⟩⟩
  | lostAfterBackoff => exact .inr ⟨fun h => by simp [hiff.mpr h] at hclass, .inl ⟨_, rfl⟩⟩
  | gone => exact .inr ⟨fun h => by simp [hiff.mpr h] at hclass, .inr ⟨_, rfl, by simp⟩⟩
  | «exists» => exact .inr ⟨fun h => by simp [hiff.mpr h] at hclass, .inr ⟨_, rfl, by simp⟩⟩
  | dfConflict => exact .inr ⟨fun h => by simp [hiff.mpr h] at hclass, .inr ⟨_, rfl, by simp⟩⟩
  | fatal => exact .inr ⟨fun h => by simp [hiff.mpr h] at hclass, .inr ⟨_, rfl, by simp⟩⟩

/-! ## What a step preserves -/

/-- What others do leaves the phase and all that has been remembered of it. -/
theorem PhaseInv.others {c : Config R} (h : PhaseInv git defaultBranch w op c) {s : World R}
    (hkeep : Keeps (git.trees c.world.repo) (git.trees s.repo)) :
    PhaseInv git defaultBranch w op (remember defaultBranch w c .none s c.phase) := by
  obtain ⟨world, phase, tips, made, landed⟩ := c
  cases phase with
  | top k => exact h
  | based k old => exact ⟨h.1, fun hf => List.mem_cons_of_mem _ (h.2 hf)⟩
  | clear k old => exact ⟨h.1, List.mem_cons_of_mem _ h.2⟩
  | built k old b => exact ⟨h.1.keeps hkeep, h.2.cons _⟩
  | failed k old b stderr => exact ⟨h.1.keeps hkeep, h.2.cons _⟩
  | seen k old b stderr now =>
    obtain ⟨hmade, recent, past, htips, habs⟩ := h
    refine ⟨hmade.keeps hkeep, s.refs (branchRef (w.target defaultBranch)) :: recent, past, ?_,
      habs⟩
    exact congrArg (List.cons _) htips
  | answered a =>
    cases a with
    | published b old => exact ⟨h.1.keeps hkeep, h.2.cons _⟩
    | _ => trivial

/-- The tip that the branch has after a successful update. -/
theorem tip_moved {s : World R} {old : Option String} {commit : String} :
    Function.update s.refs (w.full defaultBranch old) (some commit)
      (branchRef (w.target defaultBranch)) = some commit := by
  rw [full_eq, Function.update_self]

section Judged

variable {s : World R} {commit : String} {now : Option String} {landed : Bool}
  (hjudge : ∀ t, now = some t → t ≠ commit → git.isAncestor s.repo commit t = .ok landed)
  (hnone : (∀ t, now = some t → t = commit) → landed = false)

include hjudge hnone in
/-- What the write makes of the tip that it has read again is right: it counts as the commit's own
exactly when the commit is in the history of the tip. -/
theorem seen_iff (hg : git.Lawful) :
    (if landed then some commit else now) = some commit ↔ InBranch git commit now := by
  cases now with
  | none =>
    rw [hnone (fun t ht => by cases ht)]
    exact ⟨fun h => by simp at h, fun h => absurd h (not_inBranch_none _)⟩
  | some t =>
    by_cases ht : t = commit
    · subst ht
      exact ⟨fun _ => inBranch_self _, fun _ => by split_ifs <;> rfl⟩
    · have hanc := hg.isAncestor (hjudge t rfl ht)
      constructor
      · intro h
        split_ifs at h with hl
        · exact ⟨t, rfl, hanc.mp hl⟩
        · exact absurd (Option.some.inj h) ht
      · rintro ⟨t', ht', hin⟩
        cases ht'
        rw [if_pos (hanc.mpr hin)]

end Judged

theorem PhaseInv.own (hg : git.Lawful) (hop : w.op = some op) {c : Config R}
    (h : PhaseInv git defaultBranch w op c) {mark : Mark} {s : World R} {p : Phase}
    (hd : Does git identity defaultBranch w op c.world c.phase mark s p) :
    PhaseInv git defaultBranch w op (remember defaultBranch w c mark s p) := by
  obtain ⟨world, phase, tips, made, landed⟩ := c
  cases hd with
  | tooLong => trivial
  | @ended k hk =>
    unfold PhaseInv remember afterRounds
    cases k.locked <;> trivial
  | @readBase k hk =>
    unfold PhaseInv remember afterRead
    dsimp only
    split_ifs with hborn
    · trivial
    · refine ⟨h, fun hf => List.mem_cons.mpr (.inl ?_)⟩
      rw [Write.target, Option.isNone_iff_eq_none.mp hf, Option.getD_none]
  | readBaseFailed => trivial
  | noNewBranch hfresh =>
    refine ⟨h.1, ?_⟩
    have hold := h.2 (by rw [hfresh]; rfl)
    simp only [Began, hfresh, Option.isNone_none, if_true]
    exact List.mem_cons_of_mem _ hold
  | @readNames k old n names hfresh hnames =>
    unfold PhaseInv remember afterNames
    dsimp only
    cases hcol : collides names n with
    | some same => cases same <;> trivial
    | none =>
      refine ⟨h.1, ?_⟩
      have htarget : w.target defaultBranch = n := by rw [Write.target, hfresh, Option.getD_some]
      have hnone : world.refs (branchRef n) = none := by
        rw [← Option.not_isSome_iff_eq_none, ← hnames n]
        exact collides_none hcol
      simp [Began, hfresh, htarget, hnone]
  | readNamesFailed => trivial
  | @build k old b r hb =>
    obtain ⟨hcarried, hbegan⟩ := h
    obtain ⟨-, hcarried', hwritten⟩ := buildCommit_written hg hop hcarried hb
    refine ⟨⟨List.mem_cons_self, hcarried', hwritten⟩, ?_⟩
    have hparents := (hwritten _ (.refl _)).parents
    exact (hbegan.absent hg hparents).cons _
  | buildFailed => trivial
  | stopped ha => rcases ha with rfl | rfl <;> trivial
  | notPublished ha => rcases ha with rfl | rfl | ⟨e, rfl⟩ <;> trivial
  | @moved k old b hcas =>
    refine ⟨h.1, [], some b.commit, tips, ?_, inBranch_self _, h.2⟩
    simp only [remember, tip_moved]
    rfl
  | notMoved => exact ⟨h.1, h.2.cons _⟩
  | killed hcas => exact ⟨h.1, h.2.cons _⟩
  | updateFailed => trivial
  | updateLost hcas => trivial
  | @reread k old b stderr =>
    refine ⟨h.1, [], tips, ?_, h.2⟩
    simp only [remember, full_eq]
    rfl
  | rereadFailed => trivial
  | @judged k old b stderr now landed hjudge hnone =>
    obtain ⟨hmade, recent, past, htips, habs⟩ := h
    rcases afterFailure_cases k old b stderr now landed with
      ⟨hseen, hafter⟩ | ⟨hseen, ⟨locked, hafter⟩ | ⟨a, hafter, hother⟩⟩
    · rw [hafter]
      refine ⟨hmade, world.refs (branchRef (w.target defaultBranch)) :: recent, now, past,
        congrArg (List.cons _) htips, ?_, habs⟩
      exact (seen_iff hjudge hnone hg).mp hseen
    · rw [hafter]
      exact hmade.carried
    · rw [hafter]
      cases a with
      | published b' old' => exact absurd rfl (hother b' old')
      | _ => trivial
  | judgeFailed => trivial

theorem LandedInv.others {c : Config R} (h : LandedInv git c) (s : World R) :
    LandedInv git (remember defaultBranch w c .none s c.phase) := by
  obtain ⟨world, phase, tips, made, landed⟩ := c
  cases phase with
  | failed k old b stderr =>
    exact h.imp_right (fun hl => ⟨hl.1, List.mem_cons_of_mem _ hl.2⟩)
  | answered a =>
    cases a with
    | stopped why => cases why <;> exact h
    | _ => exact h
  | _ => exact h

theorem LandedInv.own (hg : git.Lawful) {c : Config R} (hphase : PhaseInv git defaultBranch w op c)
    (h : LandedInv git c) {mark : Mark} {s : World R} {p : Phase}
    (hd : Does git identity defaultBranch w op c.world c.phase mark s p)
    (hstay : NotTakenOff git (remember defaultBranch w c mark s p)) :
    LandedInv git (remember defaultBranch w c mark s p) := by
  obtain ⟨world, phase, tips, made, landed⟩ := c
  cases hd with
  | tooLong => exact h
  | @ended k hk =>
    unfold LandedInv remember afterRounds
    cases k.locked <;> exact h
  | @readBase k hk =>
    unfold LandedInv remember afterRead
    dsimp only
    split_ifs <;> exact h
  | readBaseFailed => trivial
  | noNewBranch hfresh => exact h
  | @readNames k old n names hfresh hnames =>
    unfold LandedInv remember afterNames
    dsimp only
    cases collides names n with
    | none => exact h
    | some same => cases same <;> exact h
  | readNamesFailed => trivial
  | build hb => exact h
  | @buildFailed k old why r hb => cases why <;> first | exact h | trivial
  | stopped ha => rcases ha with rfl | rfl <;> exact h
  | notPublished ha => rcases ha with rfl | rfl | ⟨e, rfl⟩ <;> exact h
  | @moved k old b hcas =>
    have hnil : landed = [] := h
    subst hnil
    exact .inr rfl
  | notMoved => exact .inl h
  | @killed k old b hcas =>
    have hnil : landed = [] := h
    subst hnil
    refine .inr ⟨rfl, List.mem_cons.mpr (.inl ?_)⟩
    exact tip_moved.symm
  | updateFailed => trivial
  | updateLost hcas => trivial
  | @reread k old b stderr =>
    refine h.imp_right (fun hl => ⟨hl.1, ?_⟩)
    have hin := (hstay b.commit hphase.1.made).head hl.2 (inBranch_self _)
    rw [full_eq]
    exact hin
  | rereadFailed => trivial
  | @judged k old b stderr now flag hjudge hnone =>
    rcases afterFailure_cases k old b stderr now flag with
      ⟨hseen, hafter⟩ | ⟨hseen, hafter⟩
    · rw [hafter]
      exact h.imp_right (fun hl => hl.1)
    · -- the commit has not landed, or the tip would have told
      have hnil : landed = [] := by
        refine h.resolve_right (fun hl => hseen ?_)
        exact (seen_iff hjudge hnone hg).mpr hl.2
      rcases hafter with ⟨locked, hafter⟩ | ⟨a, hafter, hother⟩
      · rw [hafter]
        exact hnil
      · rw [hafter]
        cases a with
        | published b' old' => exact absurd rfl (hother b' old')
        | stopped why => cases why <;> first | exact hnil | trivial
        | _ => exact hnil
  | judgeFailed => trivial

/-- Along every run, whatever others do. -/
theorem run_inv (hg : git.Lawful) (hop : w.op = some op) {s : World R} {c : Config R}
    (hrun : Run git identity defaultBranch w op (Config.start defaultBranch w s) c) :
    PhaseInv git defaultBranch w op c ∧ (NotTakenOff git c → LandedInv git c) := by
  induction hrun with
  | refl => exact ⟨carried_none, fun _ => rfl⟩
  | tail _ hstep ih =>
    cases hstep with
    | own hd =>
      exact ⟨ih.1.own hg hop hd, fun hstay => (ih.2 hstay.before).own hg ih.1 hd hstay⟩
    | @others s hopen hkeep =>
      exact ⟨ih.1.others hkeep, fun hstay => (ih.2 hstay.before).others s⟩

end Run

/-! ## A small git -/

instance (s : String) : Decidable (Token s) :=
  inferInstanceAs (Decidable (' ' ∉ s.toList ∧ '\t' ∉ s.toList ∧ '\x00' ∉ s.toList))

instance (e : Entry) : Decidable e.Printable :=
  decidable_of_iff (Token e.mode ∧ Token e.kind ∧ Token e.oid ∧ 0 ∉ e.name)
    ⟨fun h => ⟨h.1, h.2.1, h.2.2.1, h.2.2.2⟩, fun h => ⟨h.mode, h.kind, h.oid, h.name⟩⟩

instance (entries : List Entry) : Decidable (Well entries) :=
  inferInstanceAs (Decidable (_ ∧ _))

/-- The id of a tree in the small git, by the length of what `mktree` is given. -/
def smallTreeId (input : Bytes) : String := String.ofList (List.replicate (input.length + 1) 't')

/-- A commit is named by its tree and its parent. -/
def smallCommitId (tree : String) (parent : Option String) : String :=
  tree ++ "/" ++ parent.getD ""

def smallParents (c : String) : List String :=
  let p := (c.toList.dropWhile (· ≠ '/')).drop 1
  if p = [] then [] else [String.ofList p]

def smallRoot (c : String) : Option String := some (String.ofList (c.toList.takeWhile (· ≠ '/')))

/-- A git over a store of listings; it fails rather than give one id to two things. -/
def smallGit : Plumbing Trees where
  trees r := r
  parents := smallParents
  root := smallRoot
  lsTree r oid cap := match r oid with
    | some l =>
      if (mktreeInput l.entries).length ≤ cap then .ok (mktreeInput l.entries)
      else .error .outputTooLarge
    | none => .error (.failed "not a tree object")
  mktree input r := match parseTree input with
    | none => .error (.failed "input format error") r
    | some entries =>
      if h : Well entries ∧ r (smallTreeId input) = none then
        .ok (bytesOf (smallTreeId input))
          (Function.update r (smallTreeId input) (some ⟨entries, h.1.1, h.1.2⟩))
      else .error (.failed "not stored") r
  hashObject _ r := .ok (bytesOf "b") r
  commitTree tree parent _ _ r :=
    let c := smallCommitId tree parent
    if printed (bytesOf c) = c ∧ smallParents c = parent.toList ∧ smallRoot c = some tree then
      .ok (bytesOf c) r
    else .error (.failed "not a commit") r
  commitRoot _ c := .ok (smallRoot c)
  isAncestor _ _ _ := .error .busy

theorem printed_bytesOf {s : String} (h : ∀ c ∈ s.toList, Refs.isWhitespace c = false) :
    printed (bytesOf s) = s := by
  rw [printed, bytesOf, LossyText.decode_utf8, LineText.trim_eq_self h, String.ofList_toList]

theorem printed_smallTreeId (input : Bytes) :
    printed (bytesOf (smallTreeId input)) = smallTreeId input := by
  refine printed_bytesOf (fun c hc => ?_)
  rw [smallTreeId, String.toList_ofList] at hc
  rw [List.eq_of_mem_replicate hc]
  decide

theorem length_smallParents {a b : String} (h : a ∈ smallParents b) : a.length < b.length := by
  unfold smallParents at h
  dsimp only at h
  split_ifs at h with hp
  · cases h
  · rw [List.mem_singleton] at h
    subst h
    have hsuffix : b.toList.dropWhile (· ≠ '/') <:+ b.toList := List.dropWhile_suffix _
    have hle := hsuffix.length_le
    have hpos := List.length_pos_iff.mpr hp
    rw [List.length_drop] at hpos
    rw [← String.length_toList, String.toList_ofList, List.length_drop, ← String.length_toList]
    omega

theorem smallGit_lawful : smallGit.Lawful where
  lsTree := by
    intro r oid cap raw h
    simp only [smallGit] at h
    cases hl : r oid with
    | none =>
      rw [hl] at h
      cases h
    | some l =>
      rw [hl] at h
      dsimp only at h
      split_ifs at h
      cases h
      exact ⟨l, hl, rfl⟩
  mktree := by
    intro l r out r' h
    simp only [smallGit, parseTree_mktreeInput l.printable] at h
    split_ifs at h with hw
    cases h
    refine ⟨⟨l.entries, hw.1.1, hw.1.2⟩, ?_, .refl _⟩
    rw [printed_smallTreeId]
    exact Function.update_self _ _ _
  mktree_keeps := by
    intro input r out r' h
    simp only [smallGit] at h
    cases hp : parseTree input with
    | none =>
      rw [hp] at h
      cases h
    | some entries =>
      rw [hp] at h
      dsimp only at h
      split_ifs at h with hw
      cases h
      intro oid l hl
      have hne : oid ≠ smallTreeId input := by
        rintro rfl
        exact absurd (hw.2.symm.trans hl) (by simp)
      exact (Function.update_of_ne hne _ _).trans hl
  mktree_id := by
    intro input r out r' h
    simp only [smallGit] at h
    cases hp : parseTree input with
    | none =>
      rw [hp] at h
      cases h
    | some entries =>
      rw [hp] at h
      dsimp only at h
      split_ifs at h with hw
      cases h
      rw [printed_smallTreeId]
      simp [Token, smallTreeId]
  hashObject_keeps := by
    intro bytes r out r' h
    cases h
    exact .refl _
  hashObject_id := by
    intro bytes r out r' h
    cases h
    rw [printed_bytesOf (s := "b") (fun c hc => by
      rw [show "b".toList = ['b'] from rfl, List.mem_singleton] at hc
      rw [hc]
      decide)]
    decide
  commitTree := by
    intro tree parent message id r out r' h
    simp only [smallGit] at h
    split_ifs at h with hc
    cases h
    rw [hc.1]
    exact hc.2
  commitTree_keeps := by
    intro tree parent message id r out r' h
    simp only [smallGit] at h
    split_ifs at h with hc
    cases h
    exact .refl _
  commitRoot := by
    intro r c t h
    cases h
    rfl
  isAncestor := by
    intro r a b answer h
    cases h
  acyclic := by
    intro a b hab hanc
    have hle : ∀ {x y : String}, Forge.Ancestor smallParents x y → x.length ≤ y.length := by
      intro x y h
      induction h with
      | refl => exact Nat.le_refl _
      | tail _ hstep ih => exact ih.trans (length_smallParents hstep).le
    exact absurd (hle hanc) (Nat.not_le_of_lt (length_smallParents hab))

end SrcControl.ContentWrite
