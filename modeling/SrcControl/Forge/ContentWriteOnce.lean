import SrcControl.Forge.ContentWriteRuns

/-!
# A contents write changes one path, once

Whatever a round of a contents write has stored, the tree of its commit is the tree of its base
with one path changed; and over every run, with the refs moved by others between any two commands,
the write is published once or not at all. A first commit to an empty repository runs through both.
-/

namespace SrcControl.ContentWrite

open GitTrees GitWrite Fallible Rises
open RefPolicy (Verb branchRef collides)

def firstWrite : Write where
  verb := .post
  path := "f"
  bytes := []
  message := "Add f\n"
  branch := none
  newBranch := none
  sha := none
  path_ok := by decide +kernel
  content_ok := by decide +kernel

def firstEntry : Entry := ⟨"100644", "blob", "b", bytesOf "f"⟩

def firstTree : String := smallTreeId (mktreeInput [firstEntry])

theorem well_firstEntry : Well [firstEntry] := by decide

def firstBuilt : Built := ⟨smallCommitId firstTree none, firstTree, some "b", "100644"⟩

/-- A store with nothing in it. -/
def noTrees : Trees := fun _ => none

def firstTrees : Trees :=
  Function.update noTrees firstTree
    (some ⟨[firstEntry], well_firstEntry.1, well_firstEntry.2⟩)

theorem firstWrite_comps : firstWrite.comps = ["f"] := by decide

theorem writeTree_first : writeTree smallGit [firstEntry] noTrees =
    .ok firstTree firstTrees := by
  have hw : Well [firstEntry] ∧ noTrees (smallTreeId (mktreeInput [firstEntry])) = none :=
    ⟨well_firstEntry, rfl⟩
  simp only [writeTree, smallGit, parseTree_mktreeInput well_firstEntry.2, dif_pos hw,
    printed_smallTreeId]
  rfl

theorem run_bind {ε σ α β : Type} {m : EStateM ε σ α} {f : α → EStateM ε σ β} {s t : σ} {a : α}
    (h : m s = .ok a t) : (m >>= f) s = f a t := by
  change EStateM.bind m f s = _
  unfold EStateM.bind
  rw [h]

theorem run_adaptExcept {ε ε' σ α : Type} {f : ε → ε'} {m : EStateM ε σ α} {s s' : σ} {a : α}
    (h : m s = .ok a s') : EStateM.adaptExcept f m s = .ok a s' := by
  unfold EStateM.adaptExcept
  rw [h]

theorem toList_firstCommit : (smallCommitId firstTree none).toList =
    List.replicate ((mktreeInput [firstEntry]).length + 1) 't' ++ ['/'] := by
  simp [smallCommitId, firstTree, smallTreeId, String.toList_append]

theorem firstCommit_stored : printed (bytesOf (smallCommitId firstTree none)) =
      smallCommitId firstTree none ∧
    smallParents (smallCommitId firstTree none) = (none : Option String).toList ∧
      smallRoot (smallCommitId firstTree none) = some firstTree := by
  have hall : ∀ c ∈ List.replicate ((mktreeInput [firstEntry]).length + 1) 't',
      decide (c ≠ '/') = true := by
    intro c hc
    rw [List.eq_of_mem_replicate hc]
    decide
  refine ⟨printed_bytesOf (fun c hc => ?_), ?_, ?_⟩
  · rw [toList_firstCommit] at hc
    rcases List.mem_append.mp hc with hc | hc
    · rw [List.eq_of_mem_replicate hc]
      decide
    · rw [List.mem_singleton.mp hc]
      decide
  · rw [smallParents, toList_firstCommit, List.dropWhile_append_of_pos hall]
    rfl
  · rw [smallRoot, toList_firstCommit, List.takeWhile_append_of_pos hall]
    simp [firstTree, smallTreeId]

theorem firstWrite_built (identity : Identity) :
    buildCommit smallGit identity firstWrite .create none none noTrees =
      .ok firstBuilt firstTrees := by
  have hwalk : walk smallGit noTrees none ["f"] totalListing = .ok (⟨[[]], none⟩, totalListing) :=
    rfl
  have hcheck : check .create ["f"] ⟨[[]], none⟩ = .ok none := rfl
  have hblob : printed (bytesOf "b") = "b" := by
    refine printed_bytesOf (fun c hc => ?_)
    rw [show "b".toList = ['b'] from rfl, List.mem_singleton] at hc
    rw [hc]
    decide
  have hstore : storeBlob smallGit firstWrite none noTrees = .ok (some "b") noTrees := by
    rw [← hblob]
    rfl
  have hrebuild : rebuild smallGit ⟨[[]], none⟩ ["f"] (some ("100644", "b")) noTrees =
      .ok firstTree firstTrees := by
    refine (run_bind rfl).trans ?_
    exact writeTree_first
  have hcommit : smallGit.commitTree firstTree none firstWrite.message identity firstTrees =
      .ok (bytesOf (smallCommitId firstTree none)) firstTrees := by
    simp only [smallGit]
    exact if_pos firstCommit_stored
  rw [buildCommit, firstWrite_comps]
  refine (run_bind rfl).trans ((run_bind rfl).trans ?_)
  refine (run_bind (a := (⟨[[]], none⟩, totalListing)) (t := noTrees) ?_).trans ?_
  · rw [hwalk]
    rfl
  refine (run_bind (a := none) (t := noTrees) ?_).trans ?_
  · rw [hcheck]
    rfl
  refine (run_bind hstore).trans ?_
  refine (run_bind (run_adaptExcept hrebuild)).trans ?_
  refine (run_bind (run_adaptExcept hcommit)).trans ?_
  rw [firstCommit_stored.1]
  rfl

def firstWorld : World Trees := ⟨noTrees, fun _ => none⟩

def noRounds : Rounds := ⟨0, false, none⟩

/-- The first write of a repository, with nobody else about. -/
theorem firstWrite_run (identity : Identity) : ∃ c,
    Run smallGit identity "main" firstWrite .create (Config.start "main" firstWrite firstWorld) c ∧
      c.phase = .answered (.published firstBuilt none) := by
  have hread : afterRead "main" firstWrite noRounds none = .based noRounds none := rfl
  have hread' : Does smallGit identity "main" firstWrite .create firstWorld (.top noRounds) .none
      firstWorld (.based noRounds none) := by
    rw [← hread]
    exact .readBase (by decide)
  have hbuild : Does smallGit identity "main" firstWrite .create firstWorld (.clear noRounds none)
      (.made firstBuilt.commit) ⟨firstTrees, firstWorld.refs⟩
      (.built noRounds none firstBuilt) := .build (firstWrite_built identity)
  let c₁ := remember "main" firstWrite (Config.start "main" firstWrite firstWorld) .none firstWorld
    (.based noRounds none)
  let c₂ := remember "main" firstWrite c₁ .none firstWorld (.clear noRounds none)
  let c₃ := remember "main" firstWrite c₂ (.made firstBuilt.commit) ⟨firstTrees, firstWorld.refs⟩
    (.built noRounds none firstBuilt)
  have hrun : Run smallGit identity "main" firstWrite .create
      (Config.start "main" firstWrite firstWorld) c₃ :=
    .tail (.tail (.single (.own hread')) (.own (c := c₁) (.noNewBranch rfl)))
      (.own (c := c₂) hbuild)
  exact ⟨_, hrun.tail (.own (c := c₃) (.moved rfl)), rfl⟩

/-! ## The results -/

section Results

variable {R : Type} {git : Plumbing R} {identity : Identity} {defaultBranch : String} {w : Write}
  {op : Op}

/-- A round changes one path. Its commit follows the base commit, and flattened its tree is that of
the base commit with the file set to the new content, in the mode it had, or removed; a refused
round has stored nothing. -/
theorem one_path_written (hg : git.Lawful) (hop : w.op = some op) {old blob : Option String}
    (hc : Carried git w blob) {r r' : R} :
    (∀ b, buildCommit git identity w op old blob r = .ok b r' →
      Keeps (git.trees r) (git.trees r') ∧ Written git w op old b (git.trees r')) ∧
    ∀ why, buildCommit git identity w op old blob r = .error (.refused why) r' → r' = r := by
  refine ⟨fun b h => ?_, fun why h => buildCommit_refused h⟩
  obtain ⟨hkeep, -, hwritten⟩ := buildCommit_written hg hop hc h
  exact ⟨hkeep, hwritten _ (.refl _)⟩

theorem one_path_written_first : Keeps noTrees firstTrees ∧
    Written smallGit firstWrite .create none firstBuilt firstTrees :=
  (one_path_written smallGit_lawful rfl carried_none).1 firstBuilt
    (firstWrite_built ⟨"a", "a@noreply.localhost", none⟩)

/-- Over every run of the rounds, with others moving any refs at any time: a write that reports
success has its commit in the branch, where it was not before, on top of the base it names. When
nobody takes a commit of the write off the branch again, it entered the branch exactly once, no
other update of the write took effect, and an update that took effect is reported as a success or
as a failure of git, never as a refusal or a lost race. -/
theorem published_once (hg : git.Lawful) (hop : w.op = some op) {s : World R} {c : Config R}
    (hrun : Run git identity defaultBranch w op (Config.start defaultBranch w s) c) :
    (∀ b old, c.phase = .answered (.published b old) →
      Written git w op old b (git.trees c.world.repo) ∧
      1 ≤ rises (InBranch git b.commit) c.tips ∧
      (NotTakenOff git c → rises (InBranch git b.commit) c.tips = 1 ∧
        (c.landed = [] ∨ c.landed = [b.commit]))) ∧
    (NotTakenOff git c → c.landed ≠ [] → ∀ a, c.phase = .answered a →
      (∃ b old, a = .published b old) ∨ ∃ e, a = .stopped (.readFailed e)) := by
  obtain ⟨hphase, hlanded⟩ := run_inv hg hop hrun
  constructor
  · intro b old hp
    rw [PhaseInv, hp] at hphase
    obtain ⟨hmade, recent, tip, past, htips, hin, x, hx, habs⟩ := hphase
    refine ⟨hmade.written _ (.refl _), ?_, fun hstay => ⟨?_, ?_⟩⟩
    · rw [htips]
      exact one_le_rises hin hx habs
    · refine (hstay b.commit hmade.made).rises_eq_one (x := x) (y := tip) ?_ habs ?_ hin
      · simp [htips, hx]
      · simp [htips]
    · have hl := hlanded hstay
      rw [LandedInv, hp] at hl
      exact hl
  · intro hstay hne a hp
    have hl := hlanded hstay
    rw [LandedInv, hp] at hl
    cases a with
    | published b old => exact .inl ⟨b, old, rfl⟩
    | stopped why =>
      cases why with
      | readFailed e => exact .inr ⟨e, rfl⟩
      | _ => exact absurd hl hne
    | _ => exact absurd hl hne

end Results

theorem published_once_first : ∃ c : Config Trees,
    c.phase = .answered (.published firstBuilt none) ∧
      Written smallGit firstWrite .create none firstBuilt c.world.repo ∧
        1 ≤ rises (InBranch smallGit firstBuilt.commit) c.tips := by
  obtain ⟨c, hrun, hp⟩ := firstWrite_run ⟨"a", "a@noreply.localhost", none⟩
  obtain ⟨hwritten, hrise, -⟩ := (published_once smallGit_lawful rfl hrun).1 firstBuilt none hp
  exact ⟨c, hp, hwritten, hrise⟩

end SrcControl.ContentWrite
