import SrcControl.Repo.Transport

/-!
# Objects put by a pure pass

A pass that builds objects never reads the store back: what it does is the list of
objects it puts, in order. Landing that list in a store makes every one of them readable
as long as no two objects in play share an address.
-/

namespace SrcControl

/-- A fallible pass with the objects it has put so far. -/
abbrev Puts := ExceptT Error (StateM (List Object))

namespace Puts

/-- `store.put(object)`. -/
def put (idOf : Object → ObjectId) (o : Object) : Puts ObjectId := do
  modify (· ++ [o])
  pure (idOf o)

/-- The pass yields `a` and puts `os`, whatever was put before. -/
def Emits {α : Type} (x : Puts α) (a : α) (os : List Object) : Prop :=
  ∀ log, x.run log = (.ok a, log ++ os)

variable {α β : Type}

theorem emits_pure (a : α) : Emits (pure a) a [] := fun log => by rw [List.append_nil]; rfl

theorem emits_put (idOf : Object → ObjectId) (o : Object) : Emits (put idOf o) (idOf o) [o] :=
  fun _ => rfl

theorem Emits.bind {x : Puts α} {f : α → Puts β} {a : α} {b : β} {os os' : List Object}
    (h : Emits x a os) (h' : Emits (f a) b os') : Emits (x >>= f) b (os ++ os') := by
  intro log
  have hx := h log
  have hf := h' (log ++ os)
  rw [List.append_assoc] at hf
  rw [ExceptT.run_bind]
  simp only [Bind.bind, StateT.bind, hx]
  exact hf

theorem Emits.map {x : Puts α} {a : α} {os : List Object} (h : Emits x a os) (g : α → β) :
    Emits (x >>= fun a => pure (g a)) (g a) os := by
  have hbind : Emits (x >>= fun a => pure (g a)) (g a) (os ++ []) := h.bind (emits_pure (g a))
  rwa [List.append_nil] at hbind

/-- A bind that succeeded ran both parts. -/
theorem run_bind_ok {x : Puts α} {f : α → Puts β} {log log' : List Object} {b : β}
    (h : (x >>= f).run log = (.ok b, log')) :
    ∃ a mid, x.run log = (.ok a, mid) ∧ (f a).run mid = (.ok b, log') := by
  rw [ExceptT.run_bind] at h
  simp only [Bind.bind, StateT.bind] at h
  cases hx : x.run log with
  | mk r mid =>
    rw [hx] at h
    cases r with
    | error e => cases h
    | ok a => exact ⟨a, mid, rfl, h⟩

theorem run_lift_ok {x : Except Error α} {log log' : List Object} {a : α}
    (h : (liftM x : Puts α).run log = (.ok a, log')) : x = .ok a ∧ log' = log := by
  cases x with
  | error e => cases h
  | ok a => cases h; exact ⟨rfl, rfl⟩

/-- A pass over a list puts, in turn, what it puts for each element; `key` tells the results
apart. -/
theorem emits_mapM {f : α → Puts β} {key : β → α} {P : β → List Object → Prop} {xs : List α}
    (h : ∀ x ∈ xs, ∃ b os, Emits (f x) b os ∧ key b = x ∧ P b os) :
    ∃ bs os, Emits (xs.mapM f) bs os ∧ bs.map key = xs ∧ ∀ b ∈ bs, ∃ os' ⊆ os, P b os' := by
  induction xs with
  | nil => exact ⟨[], [], emits_pure [], rfl, by simp⟩
  | cons x xs ih =>
    obtain ⟨b, os, hb, hkey, hP⟩ := h x List.mem_cons_self
    obtain ⟨bs, os', hbs, hkeys, hall⟩ := ih (fun y hy => h y (List.mem_cons_of_mem x hy))
    refine ⟨b :: bs, os ++ os', ?_, by rw [List.map_cons, hkey, hkeys], fun c hc => ?_⟩
    · rw [List.mapM_cons]
      exact hb.bind (hbs.map (fun bs => b :: bs))
    · rcases List.mem_cons.mp hc with rfl | hc
      · exact ⟨os, by simp, hP⟩
      · obtain ⟨os'', hsub, hP⟩ := hall c hc
        exact ⟨os'', fun o ho => List.mem_append_right os (hsub ho), hP⟩

end Puts

/-- Land what a pass put. -/
def Store.putAll (idOf : Object → ObjectId) (s : Store) (os : List Object) : Store :=
  os.foldl (fun s o => (s.put idOf o).2) s

/-- No object of `os` shares its address with another one of `os` or of the store. -/
structure Unambiguous (idOf : Object → ObjectId) (s : Store) (os : List Object) : Prop where
  among : ∀ o ∈ os, ∀ o' ∈ os, idOf o = idOf o' → o = o'
  held : ∀ o ∈ os, ∀ o', s.objects[idOf o]? = some o' → o' = o

namespace Store

open Transport

variable {idOf : Object → ObjectId} {s : Store} {os : List Object}

theorem putAll_extends (idOf : Object → ObjectId) (s : Store) (os : List Object) :
    Extends s (s.putAll idOf os) := by
  induction os generalizing s with
  | nil => exact .refl s
  | cons o os ih => exact put_spec.2.1.trans (ih _)

theorem putAll_source {id : ObjectId} {o : Object}
    (h : (s.putAll idOf os).objects[id]? = some o) :
    s.objects[id]? = some o ∨ (o ∈ os ∧ id = idOf o) := by
  induction os generalizing s with
  | nil => exact .inl h
  | cons p os ih =>
    rcases ih h with h | ⟨ho, hid⟩
    · rcases put_spec.2.2.2 id o h with h | ⟨hid, rfl⟩
      · exact .inl h
      · exact .inr ⟨List.mem_cons_self, hid⟩
    · exact .inr ⟨List.mem_cons_of_mem p ho, hid⟩

theorem exists_of_mem_putAll {o : Object} (ho : o ∈ os) :
    ∃ o', (s.putAll idOf os).objects[idOf o]? = some o' := by
  induction os generalizing s with
  | nil => cases ho
  | cons p os ih =>
    rcases List.mem_cons.mp ho with rfl | ho
    · obtain ⟨o', ho'⟩ := (@put_spec idOf s o).2.2.1
      exact ⟨o', putAll_extends idOf _ os _ _ ho'⟩
    · exact ih ho

/-- Every object a pass put reads back. -/
theorem putAll_get (hu : Unambiguous idOf s os) {o : Object} (ho : o ∈ os) :
    (s.putAll idOf os).get (idOf o) = .ok o := by
  obtain ⟨o', ho'⟩ := @exists_of_mem_putAll idOf s os o ho
  rw [get_eq_ok_iff, ho']
  rcases putAll_source ho' with h | ⟨hmem, hid⟩
  · rw [hu.held o ho o' h]
  · rw [hu.among o ho o' hmem hid]

end Store

end SrcControl
