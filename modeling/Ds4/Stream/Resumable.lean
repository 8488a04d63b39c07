import Mathlib.Data.Nat.Init

/-! Machines that read a growing input. On the input seen so far a machine goes on step by
step, with output, until it waits for more with a verdict. A run that is resumed on a longer
input ends like a run on the longer input alone. -/
namespace Ds4.Resumable

inductive Progress (σ ο β : Type*) where
  | go (s : σ) (out : List ο)
  | wait (s : σ) (verdict : β)

/-- A machine with a measure of the work left on an input. -/
structure Machine (ι σ ο β : Type*) where
  step : ι → σ → Progress σ ο β
  left : ι → σ → ℕ
  left_lt : ∀ {q s s' out}, step q s = .go s' out → left q s' < left q s

@[ext]
structure Stop (σ ο β : Type*) where
  state : σ
  out : List ο
  verdict : β

variable {ι σ ο β : Type*} {m : Machine ι σ ο β}

namespace Machine

def iter (m : Machine ι σ ο β) (q : ι) : ℕ → σ → Option (Stop σ ο β)
  | 0, _ => none
  | n + 1, s =>
      match m.step q s with
      | .wait s' b => some ⟨s', [], b⟩
      | .go s' out => (m.iter q n s').map fun r => ⟨r.state, out ++ r.out, r.verdict⟩

def run (m : Machine ι σ ο β) (q : ι) (s : σ) : Option (Stop σ ο β) :=
  m.iter q (m.left q s + 1) s

/-- The steps from `s` on the input `q` end in `r`. -/
inductive Runs (m : Machine ι σ ο β) (q : ι) : σ → Stop σ ο β → Prop
  | wait {s s' b} : m.step q s = .wait s' b → Runs m q s ⟨s', [], b⟩
  | go {s s' out r} : m.step q s = .go s' out → Runs m q s' r →
      Runs m q s ⟨r.state, out ++ r.out, r.verdict⟩

theorem iter_of_runs {q : ι} {s : σ} {r : Stop σ ο β} (h : m.Runs q s r) {n : ℕ}
    (hn : m.left q s < n) : m.iter q n s = some r := by
  induction h generalizing n with
  | wait hs =>
    obtain ⟨n, rfl⟩ : ∃ k, n = k + 1 := ⟨n - 1, by omega⟩
    simp only [iter, hs]
  | go hs _ ih =>
    obtain ⟨n, rfl⟩ : ∃ k, n = k + 1 := ⟨n - 1, by omega⟩
    have hlt := m.left_lt hs
    simp only [iter, hs, ih (by omega : m.left q _ < n), Option.map_some]

theorem exists_runs (m : Machine ι σ ο β) (q : ι) (s : σ) : ∃ r, m.Runs q s r := by
  induction hn : m.left q s using Nat.strong_induction_on generalizing s with
  | _ n ih =>
    cases hs : m.step q s with
    | wait s' b => exact ⟨_, .wait hs⟩
    | go s' out =>
      obtain ⟨r, hr⟩ := ih _ (hn ▸ m.left_lt hs) s' rfl
      exact ⟨_, .go hs hr⟩

theorem run_eq_iff {q : ι} {s : σ} {r : Stop σ ο β} : m.run q s = some r ↔ m.Runs q s r := by
  constructor
  · intro h
    obtain ⟨r', hr⟩ := m.exists_runs q s
    rw [run, iter_of_runs hr (Nat.lt_succ_self _)] at h
    exact Option.some.inj h ▸ hr
  · intro h
    exact iter_of_runs h (Nat.lt_succ_self _)

theorem Runs.unique {q : ι} {s : σ} {r r' : Stop σ ο β} (h : m.Runs q s r) (h' : m.Runs q s r') :
    r = r' := by
  have := run_eq_iff.mpr h
  rw [run_eq_iff.mpr h'] at this
  exact (Option.some.inj this).symm

theorem Runs.of_go {q : ι} {s s' : σ} {out : List ο} {r : Stop σ ο β} (h : m.Runs q s r)
    (hs : m.step q s = .go s' out) :
    ∃ r', m.Runs q s' r' ∧ r = ⟨r'.state, out ++ r'.out, r'.verdict⟩ := by
  obtain ⟨r', hr⟩ := m.exists_runs q s'
  exact ⟨r', hr, h.unique (.go hs hr)⟩

/-- Resuming: if the steps taken on `q` are taken on the longer input `q'` as well, and a
waiting state goes on like the state that waited, then stopping at `q` on the way to `q'`
changes nothing. The steps may use where the run on `q` ends. -/
theorem Runs.resume {q q' : ι} {s : σ} {r r' : Stop σ ο β} (h : m.Runs q s r) (I : σ → Prop)
    (hI : ∀ {s s' out}, I s → m.step q s = .go s' out → I s')
    (hgo : ∀ {s s' out t}, I s → m.step q s = .go s' out → m.Runs q s' t → t.state = r.state →
      m.step q' s = .go s' out)
    (hwait : ∀ {s b t}, I s → m.step q s = .wait r.state b → m.Runs q' r.state t →
      m.Runs q' s t)
    (hs : I s) (h' : m.Runs q' r.state r') :
    m.Runs q' s ⟨r'.state, r.out ++ r'.out, r'.verdict⟩ := by
  have key : ∀ {s t}, m.Runs q s t → t.state = r.state → I s →
      m.Runs q' s ⟨r'.state, t.out ++ r'.out, r'.verdict⟩ := by
    intro s t ht
    induction ht with
    | wait hs =>
      intro hst hi
      obtain rfl : _ = r.state := hst
      exact hwait hi hs h'
    | @go s s' out t hs ht ih =>
      intro hst hi
      have hrest := ih hst (hI hi hs)
      have := Runs.go (hgo hi hs ht hst) hrest
      simpa [List.append_assoc] using this
  exact key h rfl hs

end Machine

end Ds4.Resumable
