/-! Weakest preconditions of programs with a state and an error: the error keeps the state. -/
namespace Ds4.State

variable {ε σ α β : Type}

/-- From `s` the program returns with `Q`, or fails in a state with `E`. -/
def wp (m : EStateM ε σ α) (Q : α → σ → Prop) (E : σ → Prop) (s : σ) : Prop :=
  match m s with
  | .ok a s' => Q a s'
  | .error _ s' => E s'

/-- A check with an error of its own. -/
def require (c : Bool) (e : ε) : EStateM ε σ PUnit := if c then pure ⟨⟩ else throw e

/-- The state behind a run, whether it has returned or failed. -/
def after (r : EStateM.Result ε σ α) : σ :=
  match r with
  | .ok _ s => s
  | .error _ s => s

section Rules
variable {Q Q' : α → σ → Prop} {E E' : σ → Prop} {s : σ}

@[simp] theorem wp_pure (a : α) : wp (pure a : EStateM ε σ α) Q E s = Q a s := rfl

@[simp] theorem wp_throw (e : ε) : wp (throw e : EStateM ε σ α) Q E s = E s := rfl

@[simp] theorem wp_get {P : σ → σ → Prop} : wp (get : EStateM ε σ σ) P E s = P s s := rfl

@[simp] theorem wp_modify {P : PUnit → σ → Prop} (f : σ → σ) :
    wp (modify f : EStateM ε σ PUnit) P E s = P ⟨⟩ (f s) := rfl

@[simp] theorem wp_bind (m : EStateM ε σ α) (f : α → EStateM ε σ β) {P : β → σ → Prop} :
    wp (m >>= f) P E s = wp m (fun a s' => wp (f a) P E s') E s := by
  change wp (EStateM.bind m f) P E s = _
  unfold wp EStateM.bind
  cases m s with
  | ok a s' => rfl
  | error e s' => rfl

theorem wp_mono {m : EStateM ε σ α} (h : wp m Q E s) (hQ : ∀ a s', Q a s' → Q' a s')
    (hE : ∀ s', E s' → E' s') : wp m Q' E' s := by
  unfold wp at h ⊢
  cases hm : m s with
  | ok a s' =>
    rw [hm] at h
    exact hQ a s' h
  | error e s' =>
    rw [hm] at h
    exact hE s' h

theorem wp_post {m : EStateM ε σ α} (h : wp m Q E s) (hQ : ∀ a s', Q a s' → Q' a s') :
    wp m Q' E s :=
  wp_mono h hQ fun _ he => he

/-- One program behind another: the first hands its result and its state on. -/
theorem wp_seq {m : EStateM ε σ α} {f : α → EStateM ε σ β} {P : β → σ → Prop}
    (h : wp m Q E s) (hf : ∀ a s', Q a s' → wp (f a) P E s') : wp (m >>= f) P E s := by
  rw [wp_bind]
  exact wp_post h hf

/-- What is known of a result that was returned. -/
theorem wp_ok {m : EStateM ε σ α} {a : α} {s' : σ} (h : wp m Q E s) (hm : m s = .ok a s') :
    Q a s' := by
  unfold wp at h
  rwa [hm] at h

/-- What is known of the state either way. -/
theorem wp_after {m : EStateM ε σ α} {P : σ → Prop} (h : wp m (fun _ s' => P s') P s) :
    P (after (m s)) := by
  unfold wp at h
  cases hm : m s with
  | ok a s' =>
    rw [hm] at h
    exact h
  | error e s' =>
    rw [hm] at h
    exact h

/-- A program that does not fail returns. -/
theorem wp_returns {m : EStateM ε σ α} (h : wp m Q (fun _ => False) s) :
    ∃ a s', m s = .ok a s' ∧ Q a s' := by
  unfold wp at h
  cases hm : m s with
  | ok a s' =>
    rw [hm] at h
    exact ⟨a, s', rfl, h⟩
  | error e s' =>
    rw [hm] at h
    exact absurd h not_false

@[simp] theorem wp_require_false (e : ε) {P : PUnit → σ → Prop} :
    wp (require false e) P E s = E s := rfl

@[simp] theorem wp_require_true (e : ε) {P : PUnit → σ → Prop} :
    wp (require true e) P E s = P ⟨⟩ s := rfl

theorem wp_require {c : Bool} {e : ε} {P : PUnit → σ → Prop} (hE : c = false → E s)
    (hQ : c = true → P ⟨⟩ s) : wp (require c e) P E s := by
  cases c with
  | false => exact hE rfl
  | true => exact hQ rfl

theorem wp_ite {c : Prop} [Decidable c] {m n : EStateM ε σ α} (hm : c → wp m Q E s)
    (hn : ¬c → wp n Q E s) : wp (if c then m else n) Q E s := by
  by_cases h : c
  · rw [if_pos h]
    exact hm h
  · rw [if_neg h]
    exact hn h

end Rules

end Ds4.State
