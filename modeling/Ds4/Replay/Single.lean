import Ds4.Replay.Generate

/-! What a prompt is fed and what is selected for it, and that a single run does just this. -/
namespace Ds4.Replay
open State

variable {S L T : Type} (E : Engine S L T)

section Spec
variable (p : List ℤ)

/-- The state of a slot behind the first `n` tokens of a prompt. -/
def promptState : ℕ → S
  | 0 => E.start
  | n + 1 => E.decode (promptState n) (p.getD n 0).toNat n

/-- The state of the slot that output `k` is selected from. -/
def genState : ℕ → S
  | 0 => promptState E p p.length
  | k + 1 => E.decode (genState k) (E.select (genState k)).1 ((p.length + k) % 2 ^ 32)

def outputAt (k : ℕ) : Output L T :=
  let picked := E.select (genState E p k)
  ⟨picked.1, picked.2, E.tokenText picked.1⟩

/-- The tokens and positions of the first `n` tokens of a prompt. -/
def promptFeed (n : ℕ) : List (ℕ × ℕ) := (List.range n).map fun q => ((p.getD q 0).toNat, q)

/-- What a slot is fed up to output `k`. -/
def genFeed (k : ℕ) : List (ℕ × ℕ) :=
  promptFeed p p.length ++
    (List.range k).map fun i => ((outputAt E p i).token, (p.length + i) % 2 ^ 32)

/-- Nothing stops a generation: no token is negative, and what is selected has a text. -/
structure Good (maxTokens : ℕ) : Prop where
  tokens : ∀ v ∈ p, 0 ≤ v
  texts : ∀ k < maxTokens, (outputAt E p k).text.isSome = true

theorem promptFeed_succ (n : ℕ) :
    promptFeed p (n + 1) = promptFeed p n ++ [((p.getD n 0).toNat, n)] := by
  simp [promptFeed, List.range_succ]

theorem genFeed_succ (k : ℕ) : genFeed E p (k + 1) =
    genFeed E p k ++ [((outputAt E p k).token, (p.length + k) % 2 ^ 32)] := by
  simp [genFeed, List.range_succ]

/-- The positions a slot is fed are counted from 0 on. -/
theorem genFeed_positions (k : ℕ) : (genFeed E p k).map Prod.snd =
    List.range p.length ++ (List.range k).map fun i => (p.length + i) % 2 ^ 32 := by
  simp [genFeed, promptFeed, Function.comp_def]

/-- Within the context the positions have no gap and no repeat. -/
theorem genFeed_range {k : ℕ} (h : p.length + k ≤ 2 ^ 32) :
    (genFeed E p k).map Prod.snd = List.range (p.length + k) := by
  rw [genFeed_positions, List.range_add]
  congr 1
  apply List.map_congr_left
  intro i hi
  rw [List.mem_range] at hi
  exact Nat.mod_eq_of_lt (by omega)

end Spec

/-- What a slot was fed so far. -/
def fedTo (feeds : List Feed) (slot : ℕ) : List (ℕ × ℕ) := feeds.filterMap fun feed => feed[slot]?

/-- A slot is in a state, behind what it was fed. -/
structure SlotAt (r : Run S L T) (slot : ℕ) (s : S) (history : List (ℕ × ℕ)) : Prop where
  state : r.slots slot = s
  fed : fedTo r.feeds slot = history

section Steps
variable {r : Run S L T} {slot : ℕ} {s : S} {history : List (ℕ × ℕ)}

/-- The runtime behind a feed. -/
def fedRun (feed : Feed) (r : Run S L T) : Run S L T :=
  { r with
    slots := fun slot => feed[slot]?.elim (r.slots slot) fun x => E.decode (r.slots slot) x.1 x.2
    feeds := r.feeds ++ [feed] }

theorem wp_feedTokenBatch {feed : Feed} {Q : PUnit → Run S L T → Prop} {Err : Run S L T → Prop} :
    wp (feedTokenBatch E feed) Q Err r = Q ⟨⟩ (fedRun E feed r) := rfl

/-- A slot of a feed takes its step. -/
theorem SlotAt.feed (h : SlotAt r slot s history) (feed : Feed) {token position : ℕ}
    (hx : feed[slot]? = some (token, position)) :
    SlotAt (fedRun E feed r) slot (E.decode s token position) (history ++ [(token, position)]) := by
  constructor
  · show feed[slot]?.elim _ _ = _
    rw [hx, ← h.state]
    rfl
  · show fedTo (r.feeds ++ [feed]) slot = _
    rw [fedTo, List.filterMap_append, ← h.fed]
    simp [fedTo, hx]

/-- A slot behind the end of a feed is left alone. -/
theorem SlotAt.skip (h : SlotAt r slot s history) {feed : Feed} (hx : feed[slot]? = none) :
    SlotAt (fedRun E feed r) slot s history := by
  constructor
  · show feed[slot]?.elim _ _ = _
    rw [hx, ← h.state]
    rfl
  · show fedTo (r.feeds ++ [feed]) slot = _
    rw [fedTo, List.filterMap_append, ← h.fed]
    simp [fedTo, hx]

/-- The runtime behind an output. -/
def emitted (cell : ℕ) (picked : ℕ × L) (r : Run S L T) : Run S L T :=
  { r with outputs := Function.update r.outputs cell ⟨picked.1, picked.2, E.tokenText picked.1⟩ }

theorem wp_emit {cell : ℕ} {picked : ℕ × L} {Q : PUnit → Run S L T → Prop}
    {Err : Run S L T → Prop}
    (hE : E.tokenText picked.1 = none → Err (emitted E cell picked r))
    (hQ : (E.tokenText picked.1).isSome = true → Q ⟨⟩ (emitted E cell picked r)) :
    wp (emit E cell picked) Q Err r := by
  unfold emit
  simp only [wp_bind, wp_modify]
  apply wp_require
  · intro hno
    exact hE (by simpa using hno)
  · exact hQ

theorem wp_promptToken {v : ℤ} {Q : ℕ → Run S L T → Prop} {Err : Run S L T → Prop}
    (hE : v < 0 → Err r) (hQ : 0 ≤ v → Q v.toNat r) : wp (promptToken v) Q Err r := by
  unfold promptToken
  by_cases hv : v < 0
  · rw [if_pos hv]
    exact hE hv
  · rw [if_neg hv]
    exact hQ (by omega)

end Steps

section Single
variable {p : List ℤ}

/-- Slot 0 is fed the prompt from a position on. -/
theorem wp_feedPrompt (vs : List ℤ) : ∀ (r : Run S L T) (pos : ℕ), p.drop pos = vs →
    pos ≤ p.length → (∀ v ∈ p.take pos, 0 ≤ v) →
    SlotAt r 0 (promptState E p pos) (promptFeed p pos) →
    wp (feedPrompt E vs pos)
      (fun _ r' => (∀ v ∈ p, 0 ≤ v) ∧
        SlotAt r' 0 (promptState E p p.length) (promptFeed p p.length) ∧ r'.counts = r.counts)
      (fun _ => ∃ v ∈ p, v < 0) r := by
  induction vs with
  | nil =>
    intro r pos hdrop hle hpos hslot
    have hlen : pos = p.length := le_antisymm hle (by simpa using hdrop)
    subst hlen
    rw [List.take_length] at hpos
    exact ⟨hpos, hslot, rfl⟩
  | cons v vs ih =>
    intro r pos hdrop hle hpos hslot
    have hget : p[pos]? = some v := by
      have hhead := congrArg (fun l => l[0]?) hdrop
      simpa using hhead
    have hmem : v ∈ p := List.mem_of_getElem? hget
    have hlt : pos < p.length := (List.getElem?_eq_some_iff.1 hget).1
    rw [feedPrompt, wp_bind]
    apply wp_promptToken
    · intro hneg
      exact ⟨v, hmem, hneg⟩
    intro hv
    rw [wp_bind, feedToken, wp_feedTokenBatch]
    have hstep := hslot.feed E [(v.toNat, pos)] rfl
    have hv' : p.getD pos 0 = v := by
      rw [List.getD_eq_getElem?_getD, hget]
      rfl
    apply ih
    · rw [← List.drop_drop, hdrop]
      rfl
    · exact hlt
    · intro w hw
      rw [List.take_add_one, hget] at hw
      rcases List.mem_append.1 hw with hw | hw
      · exact hpos w hw
      · simp only [Option.toList_some, List.mem_singleton] at hw
        rw [hw]
        exact hv
    · rw [promptState, promptFeed_succ, hv']
      exact hstep

/-- The outputs from `i` on are those of the prompt. -/
theorem wp_generateFrom (maxTokens : ℕ) (left : ℕ) : ∀ (r : Run S L T) (i : ℕ),
    i + left = maxTokens → (∀ k < i, (outputAt E p k).text.isSome = true) →
    SlotAt r 0 (genState E p i) (genFeed E p i) → (∀ k < i, r.outputs k = outputAt E p k) →
    wp (generateFrom E p.length left i)
      (fun _ r' => (∀ k < maxTokens, (outputAt E p k).text.isSome = true) ∧
        (∀ k < maxTokens, r'.outputs k = outputAt E p k) ∧
        (0 < left → fedTo r'.feeds 0 = genFeed E p (maxTokens - 1)) ∧ r'.counts = r.counts)
      (fun _ => ∃ k < maxTokens, (outputAt E p k).text = none) r := by
  induction left with
  | zero =>
    intro r i hi htexts hslot hout
    obtain rfl : i = maxTokens := by omega
    exact ⟨htexts, hout, fun h => absurd h (Nat.lt_irrefl 0), rfl⟩
  | succ left ih =>
    intro r i hi htexts hslot hout
    rw [generateFrom, wp_bind, selectTokenSlot, wp_bind, wp_get, hslot.state]
    apply wp_emit
    · intro hnone
      exact ⟨i, by omega, hnone⟩
    intro hsome
    have htexts' : ∀ k < i + 1, (outputAt E p k).text.isSome = true := by
      intro k hk
      by_cases hki : k = i
      · rw [hki]
        exact hsome
      · exact htexts k (by omega)
    have hcell : (emitted E i (E.select (genState E p i)) r).outputs i = outputAt E p i :=
      Function.update_self _ _ _
    have hout' : ∀ k < i + 1,
        (emitted E i (E.select (genState E p i)) r).outputs k = outputAt E p k := by
      intro k hk
      by_cases hki : k = i
      · rw [hki]
        exact hcell
      · rw [← hout k (by omega)]
        exact Function.update_of_ne hki _ _
    by_cases hleft : left = 0
    · rw [if_pos hleft]
      obtain rfl : i + 1 = maxTokens := by omega
      exact ⟨htexts', hout', fun _ => hslot.fed, rfl⟩
    · rw [if_neg hleft, wp_bind, wp_get, wp_bind, feedToken, wp_feedTokenBatch, hcell]
      have hslot' : SlotAt (emitted E i (E.select (genState E p i)) r) 0 (genState E p i)
          (genFeed E p i) := ⟨hslot.state, hslot.fed⟩
      have hfeed := hslot'.feed E [((outputAt E p i).token, (p.length + i) % 2 ^ 32)] rfl
      rw [← genFeed_succ] at hfeed
      apply wp_post (ih _ (i + 1) (by omega) htexts' hfeed hout')
      rintro _ r' ⟨htexts'', hout'', hfed, hcounts⟩
      exact ⟨htexts'', hout'', fun _ => hfed (Nat.pos_of_ne_zero hleft), hcounts⟩

/-- What `ds4_replay_generate` does, alone on a fresh runtime. -/
theorem generate_spec {o : Options} {maxTokens outputCap : ℕ} (hp : p ≠ []) (hmax : maxTokens ≠ 0)
    (hcap : maxTokens ≤ outputCap)
    (hctx : o.kvCtxTokens = 0 ∨ p.length + maxTokens ≤ o.kvCtxTokens)
    (outputs : ℕ → Output L T) (counts : ℕ → ℕ) :
    wp (generate E o p maxTokens outputCap)
      (fun _ r => Good E p maxTokens ∧ (∀ k < maxTokens, r.outputs k = outputAt E p k) ∧
        fedTo r.feeds 0 = genFeed E p (maxTokens - 1) ∧ r.counts 0 = maxTokens)
      (fun _ => ¬ Good E p maxTokens) (E.fresh outputs counts) := by
  have hlen : p.length ≠ 0 := by
    intro h
    exact hp (List.length_eq_zero_iff.1 h)
  have hcap' : outputCap ≠ 0 := by omega
  have hctx' : (decide (o.kvCtxTokens = 0) ||
      decide (p.length + maxTokens ≤ o.kvCtxTokens)) = true := by simpa using hctx
  unfold generate
  simp only [wp_bind, wp_modify, wp_get, hlen, hcap', hmax, hcap, hctx', ne_eq, not_false_eq_true,
    decide_true, Bool.and_self, wp_require_true, Engine.fresh, Bool.not_false]
  apply wp_mono (wp_feedPrompt E p _ 0 rfl (Nat.zero_le _) (by simp) ⟨rfl, rfl⟩)
  · rintro _ r ⟨htokens, hslot, -⟩
    have hslot' : SlotAt r 0 (genState E p 0) (genFeed E p 0) := by
      simpa [genState, genFeed] using hslot
    apply wp_mono (wp_generateFrom E maxTokens maxTokens r 0 (Nat.zero_add _) (by simp) hslot'
      (by simp))
    · rintro _ r' ⟨htexts, hout, hfed, -⟩
      exact ⟨⟨htokens, htexts⟩, hout, hfed (Nat.pos_of_ne_zero hmax), Function.update_self _ _ _⟩
    · rintro r' ⟨k, hk, hnone⟩ hgood
      have hsome := hgood.texts k hk
      rw [hnone] at hsome
      cases hsome
  · rintro r ⟨v, hv, hneg⟩ hgood
    exact absurd (hgood.tokens v hv) (by omega)

end Single

end Ds4.Replay
