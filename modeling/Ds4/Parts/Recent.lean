import Mathlib.Data.List.Dedup
import Mathlib.Data.Nat.Find

/-! Stores by recency: values under keys, the most recently touched one first, cut to what fits. -/
namespace Ds4.Parts.Recent
variable {κ ν : Type}

section Stores
variable [DecidableEq κ]

/-- The key's entry comes to the front. -/
def use (key : κ) (held : List (κ × ν)) : List (κ × ν) :=
  held.filter (fun e => e.1 = key) ++ held.filter (fun e => e.1 ≠ key)

/-- The key stands for the value, in front. -/
def place (key : κ) (value : ν) (held : List (κ × ν)) : List (κ × ν) :=
  (key, value) :: held.filter (fun e => e.1 ≠ key)

def keys (held : List (κ × ν)) : List κ := held.map Prod.fst

end Stores

section Trim
variable (fits : List (κ × ν) → Prop) [DecidablePred fits]

/-- The most recent entries, as many as fit. -/
def trim (held : List (κ × ν)) : List (κ × ν) :=
  held.take (Nat.findGreatest (fun n => fits (held.take n)) held.length)

variable {fits}

theorem trim_isPrefix (held : List (κ × ν)) : trim fits held <+: held := List.take_prefix _ _

theorem trim_of_fits {held : List (κ × ν)} (h : fits held) : trim fits held = held := by
  have hall : fits (held.take held.length) := by rwa [List.take_length]
  rw [trim, Nat.findGreatest_eq hall, List.take_length]

/-- Where all do not fit, the last one goes first. -/
theorem trim_concat {held : List (κ × ν)} {e : κ × ν} (h : ¬ fits (held ++ [e])) :
    trim fits (held ++ [e]) = trim fits held := by
  have htake : ∀ n ≤ held.length, (held ++ [e]).take n = held.take n := by
    intro n hn
    rw [List.take_append_of_le_length hn]
  have hgreatest : ∀ n ≤ held.length,
      Nat.findGreatest (fun n => fits ((held ++ [e]).take n)) n =
        Nat.findGreatest (fun n => fits (held.take n)) n := by
    intro n
    induction n with
    | zero => exact fun _ => rfl
    | succ n ih =>
      intro hn
      rw [Nat.findGreatest_succ, Nat.findGreatest_succ, htake _ hn, ih (by omega)]
  have hall : ¬ fits ((held ++ [e]).take (held.length + 1)) := by
    rwa [List.take_of_length_le (by simp)]
  rw [trim, trim, List.length_append, List.length_singleton, Nat.findGreatest_of_not hall,
    hgreatest _ le_rfl, htake _ (Nat.findGreatest_le _)]

end Trim

section Order
variable [DecidableEq κ]

/-- A key leaves the place of its last touch and stands last. -/
theorem dedup_concat (key : κ) (touches : List κ) :
    (touches ++ [key]).dedup = touches.dedup.filter (· ≠ key) ++ [key] := by
  induction touches with
  | nil => simp
  | cons x touches ih =>
    rw [List.cons_append]
    by_cases hx : x ∈ touches
    · rw [List.dedup_cons_of_mem (List.mem_append_left _ hx), List.dedup_cons_of_mem hx, ih]
    · rw [List.dedup_cons_of_notMem hx, List.filter_cons]
      by_cases hkey : x = key
      · rw [List.dedup_cons_of_mem (by simp [hkey]), ih, if_neg (by simpa using hkey)]
      · rw [List.dedup_cons_of_notMem (by simp [hx, hkey]), ih, if_pos (by simpa using hkey),
          List.cons_append]

/-- The keys held are those touched last, in the order of their last touches: what is not held
any more was touched before all of them. -/
def LastTouched (touches : List κ) (held : List (κ × ν)) : Prop :=
  keys held <+: touches.dedup.reverse

variable {key : κ} {value : ν} {touches : List κ} {held : List (κ × ν)}

theorem mem_use {e : κ × ν} : e ∈ use key held ↔ e ∈ held := by
  rw [use, List.mem_append, List.mem_filter, List.mem_filter]
  by_cases h : e.1 = key <;> simp [h]

theorem mem_place {e : κ × ν} :
    e ∈ place key value held ↔ e = (key, value) ∨ e ∈ held ∧ e.1 ≠ key := by
  rw [place, List.mem_cons, List.mem_filter]
  simp

omit [DecidableEq κ] in
/-- Two stores with the same keys in which each key has its one value are the same. -/
theorem ext_keys (f : κ → Option ν) : ∀ {held other : List (κ × ν)}, keys held = keys other →
    (∀ e ∈ held, f e.1 = some e.2) → (∀ e ∈ other, f e.1 = some e.2) → held = other := by
  intro held
  induction held with
  | nil =>
    intro other hkeys _ _
    exact (List.map_eq_nil_iff.1 hkeys.symm).symm
  | cons e held ih =>
    intro other hkeys hheld hother
    cases other with
    | nil => cases hkeys
    | cons e' other =>
      obtain ⟨hkey, hrest⟩ := List.cons.inj hkeys
      have hvalue := hother e' List.mem_cons_self
      rw [← hkey, hheld e List.mem_cons_self] at hvalue
      rw [Prod.ext hkey (Option.some.inj hvalue),
        ih hrest (fun x hx => hheld x (List.mem_cons_of_mem _ hx))
          fun x hx => hother x (List.mem_cons_of_mem _ hx)]

theorem LastTouched.nodup (h : LastTouched touches held) : (keys held).Nodup :=
  h.sublist.nodup (List.nodup_reverse.2 touches.nodup_dedup)

omit [DecidableEq κ] in
theorem keys_filter (p : κ → Bool) (held : List (κ × ν)) :
    keys (held.filter fun e => p e.1) = (keys held).filter p := by
  rw [keys, keys, List.filter_map]
  rfl

theorem keys_place : keys (place key value held) = key :: (keys held).filter (· ≠ key) := by
  rw [← keys_filter]
  rfl

theorem keys_use (h : (keys held).Nodup) (hkey : key ∈ keys held) :
    keys (use key held) = key :: (keys held).filter (· ≠ key) := by
  have hown : (keys held).filter (· = key) = [key] := by
    rw [List.filter_eq, List.count_eq_one_of_mem h hkey]
    rfl
  rw [use, keys, List.map_append]
  show keys (held.filter fun e => decide (e.1 = key)) ++
    keys (held.filter fun e => decide (e.1 ≠ key)) = _
  rw [keys_filter (fun x => decide (x = key)), keys_filter (fun x => decide (x ≠ key)), hown]
  rfl

/-- A touch brings the key to the front of the last touches. -/
theorem touched_front (h : LastTouched touches held) :
    key :: (keys held).filter (· ≠ key) <+: (touches ++ [key]).dedup.reverse := by
  obtain ⟨gone, hgone⟩ := h
  have hrev : (touches ++ [key]).dedup.reverse =
      key :: touches.dedup.reverse.filter (· ≠ key) := by
    rw [dedup_concat, List.reverse_append, List.reverse_singleton, List.singleton_append,
      List.filter_reverse]
  rw [hrev, ← hgone, List.filter_append]
  exact (List.prefix_cons_inj key).2 (List.prefix_append _ _)

theorem lastTouched_nil : LastTouched ([] : List κ) ([] : List (κ × ν)) := List.prefix_rfl

theorem LastTouched.use (h : LastTouched touches held) (hkey : key ∈ keys held) :
    LastTouched (touches ++ [key]) (use key held) := by
  rw [LastTouched, keys_use h.nodup hkey]
  exact touched_front h

theorem LastTouched.place (h : LastTouched touches held) :
    LastTouched (touches ++ [key]) (place key value held) := by
  rw [LastTouched, keys_place]
  exact touched_front h

theorem LastTouched.trim (h : LastTouched touches held) (fits : List (κ × ν) → Prop)
    [DecidablePred fits] : LastTouched touches (trim fits held) :=
  ((trim_isPrefix held).map Prod.fst).trans h

theorem use_absent (hkey : key ∉ keys held) : Recent.use key held = held := by
  have hnone : ∀ e ∈ held, e.1 ≠ key := by
    intro e he heq
    exact hkey (heq ▸ List.mem_map_of_mem he)
  rw [Recent.use, List.filter_eq_nil_iff.2 (by simpa using hnone),
    List.filter_eq_self.2 (by simpa using hnone), List.nil_append]

end Order

end Ds4.Parts.Recent
