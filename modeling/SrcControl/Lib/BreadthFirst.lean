import Mathlib.Data.List.Shortlex
import Mathlib.Data.List.Basic
import Mathlib.Tactic.Common

/-!
# Breadth-first search and the first path

A search that takes nodes off a queue and appends the successors not seen before takes them off
in the order of the first path to each, a path being the positions of the successors taken and
one path earlier than another when it is shorter, or as long and smaller at the first difference.
So the first node that satisfies a property ends the earliest path to such a node.
-/

namespace SrcControl.BreadthFirst

/-! ## The order of paths -/

abbrev Earlier (P Q : List Nat) : Prop := List.Shortlex (· < ·) P Q

def NoLater (P Q : List Nat) : Prop := P = Q ∨ Earlier P Q

variable {P Q R U V : List Nat}

theorem Earlier.trans (h : Earlier P Q) (h' : Earlier Q R) : Earlier P R := by
  rw [Earlier, List.shortlex_def] at h h' ⊢
  rcases h with hlt | ⟨heq, hlex⟩
  · rcases h' with hlt' | ⟨heq', -⟩
    · exact .inl (hlt.trans hlt')
    · exact .inl (heq' ▸ hlt)
  · rcases h' with hlt' | ⟨heq', hlex'⟩
    · exact .inl (heq ▸ hlt')
    · refine .inr ⟨heq.trans heq', ?_⟩
      rw [← List.lt_iff_lex_lt] at hlex hlex' ⊢
      exact List.lt_trans hlex hlex'

theorem Earlier.noLater (h : Earlier P Q) : NoLater P Q := .inr h

theorem NoLater.trans (h : NoLater P Q) (h' : NoLater Q R) : NoLater P R := by
  rcases h with rfl | h
  · exact h'
  · rcases h' with rfl | h'
    · exact .inr h
    · exact .inr (h.trans h')

theorem NoLater.trans_earlier (h : NoLater P Q) (h' : Earlier Q R) : Earlier P R := by
  rcases h with rfl | h
  · exact h'
  · exact h.trans h'

theorem NoLater.not_earlier (h : NoLater P Q) : ¬Earlier Q P := by
  rintro h'
  rcases h with rfl | h
  · exact Std.Asymm.asymm _ _ h' h'
  · exact Std.Asymm.asymm _ _ h h'

theorem NoLater.antisymm (h : NoLater P Q) (h' : NoLater Q P) : P = Q := by
  rcases h with rfl | h
  · rfl
  · exact absurd h h'.not_earlier

theorem NoLater.length_le (h : NoLater P Q) : P.length ≤ Q.length := by
  rcases h with rfl | h
  · exact Nat.le_refl _
  · rcases List.shortlex_def.mp h with hlt | ⟨heq, -⟩
    · exact hlt.le
    · exact heq.le

theorem earlier_append (hlt : P.length < Q.length) : Earlier P Q := .of_length_lt hlt

/-- An earlier path stays earlier under continuations of growing length. -/
theorem Earlier.append (h : Earlier P Q) (hlen : U.length ≤ V.length) :
    Earlier (P ++ U) (Q ++ V) := by
  have hlex : ∀ {P Q : List Nat}, P.length = Q.length → List.Lex (· < ·) P Q →
      List.Lex (· < ·) (P ++ U) (Q ++ V) := by
    intro P Q heq hlex
    induction hlex with
    | nil => cases heq
    | cons _ ih => exact .cons (ih (Nat.succ.inj heq))
    | rel hlt => exact .rel hlt
  rcases List.shortlex_def.mp h with hlt | ⟨heq, hl⟩
  · exact .of_length_lt (by rw [List.length_append, List.length_append]; omega)
  · rcases Nat.lt_or_ge U.length V.length with hlt | hge
    · exact .of_length_lt (by rw [List.length_append, List.length_append]; omega)
    · exact .of_lex (by rw [List.length_append, List.length_append]; omega) (hlex heq hl)

theorem NoLater.append_left (h : NoLater P Q) (R : List Nat) : NoLater (R ++ P) (R ++ Q) := by
  rcases h with rfl | h
  · exact .inl rfl
  · exact .inr (List.Shortlex.append_left h R)

theorem NoLater.append_right (h : NoLater P Q) (R : List Nat) : NoLater (P ++ R) (Q ++ R) := by
  rcases h with rfl | h
  · exact .inl rfl
  · exact .inr (h.append (Nat.le_refl _))

theorem noLater_append (P R : List Nat) : NoLater P (P ++ R) := by
  cases R with
  | nil => exact .inl (List.append_nil P).symm
  | cons k R => exact .inr (.of_length_lt (by simp))

/-! ## Paths -/

variable {α : Type} {succ : α → List α} {x y z t : α}

/-- The positions of the successors taken lead from `x` to `t`. -/
inductive Follows (succ : α → List α) : α → List Nat → α → Prop
  | nil (x : α) : Follows succ x [] x
  | cons {x z t : α} {k : Nat} {R : List Nat} (h : (succ x)[k]? = some z)
      (h' : Follows succ z R t) : Follows succ x (k :: R) t

theorem Follows.snoc {k : Nat} (h : Follows succ x P y) (hk : (succ y)[k]? = some z) :
    Follows succ x (P ++ [k]) z := by
  induction h with
  | nil x => exact .cons hk (.nil z)
  | cons h _ ih => exact .cons h (ih hk)

theorem Follows.unique (h : Follows succ x P y) (h' : Follows succ x P z) : y = z := by
  induction h with
  | nil x =>
    cases h'
    rfl
  | cons h _ ih =>
    cases h' with
    | cons hk h' =>
      obtain rfl := Option.some.inj (h.symm.trans hk)
      exact ih h'

/-- The successors that a search queues: those not seen, each at its first position. -/
structure Fresh [DecidableEq α] (ps : List α) (seen : α → Prop) (new : List α) : Prop where
  mem : ∀ z, z ∈ new ↔ z ∈ ps ∧ ¬seen z
  order : new.Pairwise (fun x y => ps.idxOf x < ps.idxOf y)

/-- The search from `b`: `rec` is the path by which each node was first reached. -/
structure Search (succ : α → List α) (goal : α → Prop) (b : α) (route : α → List Nat)
    (queue : List α) (seen : α → Prop) : Prop where
  start : seen b ∧ route b = []
  follows : ∀ x, seen x → Follows succ b (route x) x
  queued : ∀ x ∈ queue, seen x
  sorted : queue.Pairwise (fun x y => Earlier (route x) (route y))
  window : ∀ x ∈ queue, ∀ y ∈ queue, ∀ k, Earlier (route x) (route y ++ [k])
  done : ∀ x, seen x → x ∉ queue → ∀ y ∈ queue, Earlier (route x) (route y)
  cover : ∀ x, seen x → ∀ R t, Follows succ x R t → goal t →
    ∃ y ∈ queue, ∃ U, Follows succ y U t ∧ NoLater (route y ++ U) (route x ++ R)

variable {goal : α → Prop} {b : α} {route : α → List Nat} {queue : List α} {seen : α → Prop}

theorem search_start (succ : α → List α) (goal : α → Prop) (b : α) :
    Search succ goal b (fun _ => []) [b] (· = b) where
  start := ⟨rfl, rfl⟩
  follows := by
    rintro x rfl
    exact .nil x
  queued := fun x hx => List.mem_singleton.mp hx
  sorted := List.pairwise_singleton _ b
  window := fun x _ y _ k => .of_length_lt (by simp)
  done := fun x hx hnot => absurd (List.mem_singleton.mpr hx) hnot
  cover := by
    rintro x rfl R t hR _
    exact ⟨x, List.mem_singleton.mpr rfl, R, hR, .inl rfl⟩

/-- A goal at the head of the queue ends the earliest path to a goal. -/
theorem Search.first (h : Search succ goal b route (y :: queue) seen) :
    Follows succ b (route y) y ∧ ∀ R t, Follows succ b R t → goal t → NoLater (route y) R := by
  refine ⟨h.follows y (h.queued y List.mem_cons_self), fun R t hR ht => ?_⟩
  obtain ⟨x, hx, U, -, hU⟩ := h.cover b h.start.1 R t hR ht
  rw [h.start.2, List.nil_append] at hU
  refine NoLater.trans ?_ ((noLater_append (route x) U).trans hU)
  rcases List.mem_cons.mp hx with rfl | hx
  · exact .inl rfl
  · exact .inr ((List.pairwise_cons.mp h.sorted).1 x hx)

/-- An empty queue leaves no goal to reach. -/
theorem Search.none (h : Search succ goal b route [] seen) {R : List Nat} {t : α}
    (hR : Follows succ b R t) : ¬goal t := by
  intro ht
  obtain ⟨x, hx, -⟩ := h.cover b h.start.1 R t hR ht
  cases hx

/-- The routes after the successors of `y` are queued. -/
def extend [DecidableEq α] (succ : α → List α) (y : α) (new : List α) (route : α → List Nat)
    (x : α) : List Nat :=
  if x ∈ new then route y ++ [(succ y).idxOf x] else route x

variable [DecidableEq α] {rest new : List α}

theorem extend_new (hx : x ∈ new) :
    extend succ y new route x = route y ++ [(succ y).idxOf x] :=
  if_pos hx

theorem extend_old (hx : x ∉ new) : extend succ y new route x = route x :=
  if_neg hx

theorem idxOf_le {ps : List α} {k : Nat} (hk : ps[k]? = some z) : ps.idxOf z ≤ k := by
  obtain ⟨hlt, rfl⟩ := List.getElem?_eq_some_iff.mp hk
  by_contra hgt
  have hne := List.not_of_lt_findIdx (Nat.not_le.mp hgt)
  simp at hne

/-- From a node off the queue without a goal the search goes on through a queued node. -/
theorem Search.cover_head (h : Search succ goal b route (y :: rest) seen)
    (hnew : Fresh (succ y) seen new) (hy : ¬goal y) :
    ∀ R t, Follows succ y R t → goal t → ∃ z ∈ rest ++ new, ∃ U, Follows succ z U t ∧
      NoLater (extend succ y new route z ++ U) (route y ++ R) := by
  have hold : ∀ x, seen x → x ∉ new := fun x hx hin => ((hnew.mem x).mp hin).2 hx
  have hseen := h.queued y List.mem_cons_self
  have hback : ∀ z, seen z → z ∉ rest → NoLater (route z) (route y) := by
    intro z hz hnot
    by_cases hzy : z = y
    · rw [hzy]
      exact .inl rfl
    · have hoff : z ∉ y :: rest := by
        rw [List.mem_cons, not_or]
        exact ⟨hzy, hnot⟩
      exact (h.done z hz hoff y List.mem_cons_self).noLater
  have hwalk : ∀ n R t, R.length ≤ n → Follows succ y R t → goal t →
      ∃ z ∈ rest ++ new, ∃ U, Follows succ z U t ∧
        NoLater (extend succ y new route z ++ U) (route y ++ R) := by
    intro n
    -- the walk comes back to `y` only with fewer steps left
    induction n with
    | zero =>
      intro R t hR hwalk ht
      obtain rfl := List.length_eq_zero_iff.mp (Nat.le_zero.mp hR)
      cases hwalk
      exact absurd ht hy
    | succ n ih =>
      intro R t hR hwalk ht
      cases hwalk with
      | nil => exact absurd ht hy
      | @cons _ z _ k R hk hwalk =>
        have hin : z ∈ succ y := List.mem_of_getElem? hk
        rw [List.length_cons] at hR
        by_cases hz : seen z
        · by_cases hrest : z ∈ rest
          · refine ⟨z, List.mem_append_left new hrest, R, hwalk, ?_⟩
            have hlt := h.window z (List.mem_cons_of_mem y hrest) y List.mem_cons_self k
            rw [extend_old (hold z hz), ← List.singleton_append, ← List.append_assoc]
            exact (hlt.append (Nat.le_refl _)).noLater
          · obtain ⟨x, hx, U, hU, hle⟩ := h.cover z hz R t hwalk ht
            have hz' := hle.trans ((hback z hz hrest).append_right R)
            have hall : NoLater (route x ++ U) (route y ++ k :: R) := by
              refine hz'.trans (earlier_append ?_).noLater
              rw [List.length_append, List.length_append, List.length_cons]
              omega
            rcases List.mem_cons.mp hx with rfl | hx
            · have hlen := hz'.length_le
              rw [List.length_append, List.length_append] at hlen
              obtain ⟨x', hx', U', hU', hle'⟩ := ih U t (by omega) hU ht
              exact ⟨x', hx', U', hU', hle'.trans hall⟩
            · refine ⟨x, List.mem_append_left new hx, U, hU, ?_⟩
              rw [extend_old (hold x (h.queued x (List.mem_cons_of_mem y hx)))]
              exact hall
        · have hznew : z ∈ new := (hnew.mem z).mpr ⟨hin, hz⟩
          refine ⟨z, List.mem_append_right rest hznew, R, hwalk, ?_⟩
          rw [extend_new hznew, List.append_assoc, List.singleton_append]
          refine NoLater.append_left ?_ (route y)
          rcases Nat.lt_or_eq_of_le (idxOf_le hk) with hlt | heq
          · exact .inr (.of_lex rfl (.rel hlt))
          · exact .inl (by rw [heq])
  exact fun R t => hwalk R.length R t (Nat.le_refl _)

/-- Taking a node without a goal off the queue and queueing its fresh successors. -/
theorem Search.step (h : Search succ goal b route (y :: rest) seen)
    (hnew : Fresh (succ y) seen new) (hy : ¬goal y) :
    Search succ goal b (extend succ y new route) (rest ++ new)
      (fun x => seen x ∨ x ∈ succ y) := by
  have hold : ∀ x, seen x → x ∉ new := fun x hx hin => ((hnew.mem x).mp hin).2 hx
  have hrest : ∀ x ∈ rest, seen x := fun x hx => h.queued x (List.mem_cons_of_mem y hx)
  have hroute : ∀ x ∈ rest, extend succ y new route x = route x :=
    fun x hx => extend_old (hold x (hrest x hx))
  obtain ⟨hhead, hsorted⟩ := List.pairwise_cons.mp h.sorted
  have hin : y ∈ y :: rest := List.mem_cons_self
  have htail : ∀ x ∈ rest, x ∈ y :: rest := fun x hx => List.mem_cons_of_mem y hx
  have hseen : ∀ x, seen x ∨ x ∈ succ y → x ∉ new → seen x := by
    intro x hx hxnew
    by_contra hno
    exact hxnew ((hnew.mem x).mpr ⟨hx.resolve_left hno, hno⟩)
  have hsnoc : ∀ (P : List Nat) (k : Nat), Earlier P (P ++ [k]) :=
    fun P k => .of_length_lt (by simp)
  refine ⟨?_, ?_, ?_, ?_, ?_, ?_, ?_⟩
  · exact ⟨.inl h.start.1, by rw [extend_old (hold b h.start.1), h.start.2]⟩
  · intro x hx
    by_cases hxnew : x ∈ new
    · rw [extend_new hxnew]
      have hmem := ((hnew.mem x).mp hxnew).1
      exact (h.follows y (h.queued y hin)).snoc (List.getElem?_idxOf hmem)
    · rw [extend_old hxnew]
      exact h.follows x (hseen x hx hxnew)
  · intro x hx
    rcases List.mem_append.mp hx with hx | hx
    · exact .inl (hrest x hx)
    · exact .inr ((hnew.mem x).mp hx).1
  · refine List.pairwise_append.mpr ⟨?_, ?_, fun x hx z hz => ?_⟩
    · refine List.Pairwise.imp_of_mem (fun {x z} hx hz hlt => ?_) hsorted
      rw [hroute x hx, hroute z hz]
      exact hlt
    · refine List.Pairwise.imp_of_mem (fun {x z} hx hz hlt => ?_) hnew.order
      rw [extend_new hx, extend_new hz]
      exact List.Shortlex.append_left ((List.shortlex_singleton_iff _ _).mpr hlt) _
    · rw [hroute x hx, extend_new hz]
      exact h.window x (htail x hx) y hin _
  · intro x hx z hz k
    rcases List.mem_append.mp hx with hx | hx <;> rcases List.mem_append.mp hz with hz | hz
    · rw [hroute x hx, hroute z hz]
      exact h.window x (htail x hx) z (htail z hz) k
    · rw [hroute x hx, extend_new hz]
      exact (h.window x (htail x hx) y hin _).trans (hsnoc _ k)
    · rw [extend_new hx, hroute z hz]
      exact (hhead z hz).append (Nat.le_refl _)
    · rw [extend_new hx, extend_new hz]
      exact .of_length_lt (by simp)
  · intro x hx hnot z hz
    rw [List.mem_append, not_or] at hnot
    have hxy : NoLater (route x) (route y) := by
      by_cases heq : x = y
      · rw [heq]
        exact .inl rfl
      · refine (h.done x (hseen x hx hnot.2) ?_ y hin).noLater
        rw [List.mem_cons, not_or]
        exact ⟨heq, hnot.1⟩
    rw [extend_old hnot.2]
    rcases List.mem_append.mp hz with hz | hz
    · rw [hroute z hz]
      exact hxy.trans_earlier (hhead z hz)
    · rw [extend_new hz]
      exact hxy.trans_earlier (hsnoc _ _)
  · intro x hx R t hwalk ht
    by_cases hxnew : x ∈ new
    · exact ⟨x, List.mem_append_right rest hxnew, R, hwalk, .inl rfl⟩
    · rw [extend_old hxnew]
      obtain ⟨z, hz, U, hU, hle⟩ := h.cover x (hseen x hx hxnew) R t hwalk ht
      rcases List.mem_cons.mp hz with rfl | hz
      · obtain ⟨z', hz', U', hU', hle'⟩ := h.cover_head hnew hy U t hU ht
        exact ⟨z', hz', U', hU', hle'.trans hle⟩
      · refine ⟨z, List.mem_append_left new hz, U, hU, ?_⟩
        rw [hroute z hz]
        exact hle

end SrcControl.BreadthFirst
