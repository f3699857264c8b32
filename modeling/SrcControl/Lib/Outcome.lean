import SrcControl.Lib.Fallible

/-!
# Outcomes of stateful runs

A run over a state that survives failure is specified by what holds of the result and
the state when it returns, and of the error and the state when it fails.
-/

namespace SrcControl.Fallible

variable {ε σ α β : Type}

/-- `m`, started in `s`, returns into `post` or fails into `fail`. -/
def Outcome (m : EStateM ε σ α) (s : σ) (post : α → σ → Prop) (fail : ε → σ → Prop) : Prop :=
  match m s with
  | .ok a s' => post a s'
  | .error e s' => fail e s'

namespace Outcome

variable {m : EStateM ε σ α} {s : σ} {post : α → σ → Prop} {fail : ε → σ → Prop}

theorem pure {a : α} (h : post a s) : Outcome (pure a) s post fail := h

theorem throw {e : ε} (h : fail e s) : Outcome (throw e) s post fail := h

theorem get {post : σ → σ → Prop} (h : post s s) :
    Outcome (MonadState.get : EStateM ε σ σ) s post fail := h

theorem modify {g : σ → σ} {post : PUnit → σ → Prop} (h : post ⟨⟩ (g s)) :
    Outcome (modify g : EStateM ε σ PUnit) s post fail := h

theorem mono {post' : α → σ → Prop} {fail' : ε → σ → Prop} (h : Outcome m s post fail)
    (hpost : ∀ a s', post a s' → post' a s') (hfail : ∀ e s', fail e s' → fail' e s') :
    Outcome m s post' fail' := by
  unfold Outcome at h ⊢
  cases hm : m s with
  | ok a s' =>
    rw [hm] at h
    exact hpost a s' h
  | error e s' =>
    rw [hm] at h
    exact hfail e s' h

theorem bind {f : α → EStateM ε σ β} {post : β → σ → Prop}
    (h : Outcome m s (fun a s' => Outcome (f a) s' post fail) fail) :
    Outcome (m >>= f) s post fail := by
  unfold Outcome at h
  cases hm : m s with
  | ok a s' =>
    simp only [hm] at h
    change match EStateM.bind m f s with
      | .ok a s' => post a s'
      | .error e s' => fail e s'
    rw [EStateM.bind, hm]
    exact h
  | error e s' =>
    simp only [hm] at h
    change match EStateM.bind m f s with
      | .ok a s' => post a s'
      | .error e s' => fail e s'
    rw [EStateM.bind, hm]
    exact h

/-- A loop keeps what each of its steps keeps of the elements done so far. -/
theorem foldlM {f : α → β → EStateM ε σ α} {I : List β → α → σ → Prop} {xs : List β}
    (step : ∀ done x rest a s, xs = done ++ x :: rest → I done a s →
      Outcome (f a x) s (I (done ++ [x])) fail) {a : α} (h : I [] a s) :
    Outcome (xs.foldlM f a) s (I xs) fail := by
  have hrun : ∀ rest done a s, xs = done ++ rest → I done a s →
      Outcome (rest.foldlM f a) s (I xs) fail := by
    intro rest
    induction rest with
    | nil =>
      intro done a s hxs h
      rw [List.append_nil] at hxs
      subst hxs
      exact h
    | cons x rest ih =>
      intro done a s hxs h
      rw [List.foldlM_cons]
      refine bind ((step done x rest a s hxs h).mono (fun a' s' h' => ?_) (fun e s' h' => h'))
      exact ih (done ++ [x]) a' s' (by rw [hxs, List.append_assoc]; rfl) h'
  exact hrun xs [] a s rfl h

theorem forM {f : β → EStateM ε σ PUnit} {I : List β → σ → Prop} {xs : List β}
    (step : ∀ done x rest s, xs = done ++ x :: rest → I done s →
      Outcome (f x) s (fun _ => I (done ++ [x])) fail) (h : I [] s) :
    Outcome (xs.forM f) s (fun _ => I xs) fail := by
  have hrun : ∀ rest done s, xs = done ++ rest → I done s →
      Outcome (rest.forM f) s (fun _ => I xs) fail := by
    intro rest
    induction rest with
    | nil =>
      intro done s hxs h
      rw [List.append_nil] at hxs
      subst hxs
      exact h
    | cons x rest ih =>
      intro done s hxs h
      refine bind ((step done x rest s hxs h).mono (fun _ s' h' => ?_) (fun e s' h' => h'))
      exact ih (done ++ [x]) s' (by rw [hxs, List.append_assoc]; rfl) h'
  exact hrun xs [] s rfl h

end Outcome

end SrcControl.Fallible
