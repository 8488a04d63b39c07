import Ds4.State.Calls

/-! One program run from two states that a relation holds between: the same results, and states
that the relation holds between again. -/
namespace Ds4.State.Prog

variable {σ τ α β : Type}

/-- Two runs that end alike: both return the same with `R` between their states, or both fail
with the same error and `E`. -/
def Outcome (R E : σ → σ → Prop) (r r' : EStateM.Result String (σ × ℕ) α) : Prop :=
  match r, r' with
  | .ok a t, .ok b t' => a = b ∧ R t.1 t'.1 ∧ t.2 = t'.2
  | .error e t, .error e' t' => e = e' ∧ E t.1 t'.1 ∧ t.2 = t'.2
  | _, _ => False

/-- From states in `P` the program leaves states in `R`, or fails in states in `E`. -/
def Sim (P R E : σ → σ → Prop) (m : Prog σ α) : Prop :=
  ∀ s s' n, P s s' → Outcome R E (m (s, n)) (m (s', n))

/-- The program cannot tell related states apart, and leaves related states. -/
abbrev Respects (R : σ → σ → Prop) (m : Prog σ α) : Prop := Sim R R R m

/-- An invariant that a program keeps, also where it fails. -/
abbrev Keeps (I : σ → Prop) (m : Prog σ α) : Prop := Respects (fun s s' => s = s' ∧ I s) m

section Sim
variable {P Q R E : σ → σ → Prop}

theorem Outcome.mono {R' E' : σ → σ → Prop} {r r' : EStateM.Result String (σ × ℕ) α}
    (h : Outcome R E r r') (hR : ∀ s s', R s s' → R' s s') (hE : ∀ s s', E s s' → E' s s') :
    Outcome R' E' r r' := by
  cases r with
  | ok a t =>
    cases r' with
    | ok b t' => exact ⟨h.1, hR _ _ h.2.1, h.2.2⟩
    | error e t' => exact absurd h not_false
  | error e t =>
    cases r' with
    | ok b t' => exact absurd h not_false
    | error e' t' => exact ⟨h.1, hE _ _ h.2.1, h.2.2⟩

theorem Sim.mono {R' E' : σ → σ → Prop} {m : Prog σ α} (h : Sim P R E m)
    (hR : ∀ s s', R s s' → R' s s') (hE : ∀ s s', E s s' → E' s s') : Sim P R' E' m :=
  fun s s' n hs => (h s s' n hs).mono hR hE

theorem sim_bind {m : Prog σ α} {f : α → Prog σ β} (hm : Sim P Q E m)
    (hf : ∀ a, Sim Q R E (f a)) : Sim P R E (m >>= f) := by
  intro s s' n h
  have hout := hm s s' n h
  change Outcome R E (EStateM.bind m f (s, n)) (EStateM.bind m f (s', n))
  unfold EStateM.bind
  cases hr : m (s, n) with
  | ok a t =>
    cases hr' : m (s', n) with
    | ok b t' =>
      rw [hr, hr'] at hout
      obtain ⟨x, k⟩ := t
      obtain ⟨y, k'⟩ := t'
      obtain ⟨rfl, hR, rfl⟩ : a = b ∧ Q x y ∧ k = k' := hout
      exact hf a x y k hR
    | error e t' =>
      rw [hr, hr'] at hout
      exact absurd hout not_false
  | error e t =>
    cases hr' : m (s', n) with
    | ok b t' =>
      rw [hr, hr'] at hout
      exact absurd hout not_false
    | error e' t' =>
      rw [hr, hr'] at hout
      exact hout

theorem Sim.pre {P' : σ → σ → Prop} {m : Prog σ α} (h : Sim P R E m)
    (hP : ∀ s s', P' s s' → P s s') : Sim P' R E m := fun s s' n hs => h s s' n (hP s s' hs)

/-- A relation with a value that the program does not see. -/
theorem sim_exists {ι : Type} {P : ι → σ → σ → Prop} {m : Prog σ α}
    (h : ∀ i, Sim (P i) R E m) : Sim (fun s s' => ∃ i, P i s s') R E m := by
  rintro s s' n ⟨i, hs⟩
  exact h i s s' n hs

theorem sim_write {f : σ → σ} (hf : ∀ s s', P s s' → R (f s) (f s')) : Sim P R E (write f) :=
  fun s s' _ h => ⟨rfl, hf s s' h, rfl⟩

end Sim

section Rules
variable {R : σ → σ → Prop}

theorem respects_pure (a : α) : Respects R (pure a : Prog σ α) := fun _ _ _ h => ⟨rfl, h, rfl⟩

theorem respects_throw (e : String) : Respects R (throw e : Prog σ α) :=
  fun _ _ _ h => ⟨rfl, h, rfl⟩

theorem respects_bind {m : Prog σ α} {f : α → Prog σ β} (hm : Respects R m)
    (hf : ∀ a, Respects R (f a)) : Respects R (m >>= f) := sim_bind hm hf

theorem respects_ite {c : Prop} [Decidable c] {m m' : Prog σ α} (hm : c → Respects R m)
    (hm' : ¬c → Respects R m') : Respects R (if c then m else m') := by
  by_cases h : c
  · rw [if_pos h]
    exact hm h
  · rw [if_neg h]
    exact hm' h

theorem respects_call (answers : ℕ → Bool) : Respects R (call answers) :=
  fun _ _ _ h => ⟨rfl, h, rfl⟩

theorem respects_require (c : Bool) (e : String) :
    Respects R (require c e : Prog σ PUnit) := by
  cases c with
  | false => exact respects_throw e
  | true => exact respects_pure _

/-- Behind a check the program may rely on it. -/
theorem sim_require_bind {Q : σ → σ → Prop} {c : Bool} {e : String} {m : PUnit → Prog σ α}
    (hm : c = true → Sim R Q R (m ⟨⟩)) : Sim R Q R (require c e >>= m) := by
  cases c with
  | false =>
    intro s s' n h
    exact ⟨rfl, h, rfl⟩
  | true => exact hm rfl

theorem respects_write {f : σ → σ} (hf : ∀ s s', R s s' → R (f s) (f s')) :
    Respects R (write f) := sim_write hf

/-- A primitive that writes moves on to another relation. -/
theorem sim_launch {Q : σ → σ → Prop} {answers : ℕ → Bool} {f : σ → σ} {e : String}
    (hf : ∀ s s', R s s' → Q (f s) (f s')) : Sim R Q R (launch answers f e) := by
  apply sim_bind (respects_call answers)
  intro ok
  apply sim_bind (respects_require ok e)
  intro _
  exact sim_write hf

theorem respects_launch {answers : ℕ → Bool} {f : σ → σ} {e : String}
    (hf : ∀ s s', R s s' → R (f s) (f s')) : Respects R (launch answers f e) := sim_launch hf

/-- What is read does not tell related states apart; the program goes on with it. -/
theorem sim_readAt_bind {Q E : σ → σ → Prop} {f : σ → ℕ → α} {m : α → Prog σ β}
    (hf : ∀ s s' n, R s s' → f s n = f s' n)
    (hm : ∀ s s' n, R s s' → Sim R Q E (m (f s n))) : Sim R Q E (readAt f >>= m) := by
  intro s s' n h
  have hout := hm s s' n h s s' n h
  rw [show (readAt f >>= m) (s, n) = m (f s n) (s, n) from rfl,
    show (readAt f >>= m) (s', n) = m (f s' n) (s', n) from rfl, ← hf s s' n h]
  exact hout

theorem respects_zoom {S : τ → τ → Prop} {part : σ → τ} {put : τ → σ → σ} {m : Prog τ α}
    (hpart : ∀ s s', R s s' → S (part s) (part s'))
    (hput : ∀ s s' t t', R s s' → S t t' → R (put t s) (put t' s')) (hm : Respects S m) :
    Respects R (zoom part put m) := by
  intro s s' n h
  have hout := hm (part s) (part s') n (hpart s s' h)
  unfold zoom
  cases hr : m (part s, n) with
  | ok a t =>
    cases hr' : m (part s', n) with
    | ok b t' =>
      simp only [hr, hr'] at hout ⊢
      exact ⟨hout.1, hput _ _ _ _ h hout.2.1, hout.2.2⟩
    | error e t' =>
      rw [hr, hr'] at hout
      exact absurd hout not_false
  | error e t =>
    cases hr' : m (part s', n) with
    | ok b t' =>
      rw [hr, hr'] at hout
      exact absurd hout not_false
    | error e' t' =>
      simp only [hr, hr'] at hout ⊢
      exact ⟨hout.1, hput _ _ _ _ h hout.2.1, hout.2.2⟩

/-- A relation that a state has to itself is kept. -/
theorem Respects.after {m : Prog σ α} (hm : Respects R m) {s : σ} {n : ℕ} (hs : R s s) :
    R (State.after (m (s, n))).1 (State.after (m (s, n))).1 := by
  have hout := hm s s n hs
  cases hr : m (s, n) with
  | ok a t =>
    rw [hr] at hout
    exact hout.2.1
  | error e t =>
    rw [hr] at hout
    exact hout.2.1

end Rules

section Keeps
variable {I : σ → Prop}

/-- What is kept holds of the state at the end. -/
theorem Keeps.wp {m : Prog σ α} (hm : Keeps I m) {s : σ} {n : ℕ} (hs : I s) :
    wp m (fun _ r => I r.1) (fun r => I r.1) (s, n) := by
  have hout := hm s s n ⟨rfl, hs⟩
  unfold State.wp
  cases hr : m (s, n) with
  | ok a t =>
    rw [hr] at hout
    exact hout.2.1.2
  | error e t =>
    rw [hr] at hout
    exact hout.2.1.2

end Keeps

end Ds4.State.Prog
