import Ds4.Stage.Scheduler

/-! Generation for one prompt, and for a batch of prompts that are fed in lock step. -/
namespace Ds4.Replay
open State

/-- What the stages and the output head do to a slot, and the texts of the tokens. -/
structure Engine (S L T : Type) where
  start : S
  decode : S → ℕ → ℕ → S
  select : S → ℕ × L
  tokenText : ℕ → Option T

/-- `ds4_replay_output`; the text is null where the token has none. -/
structure Output (L T : Type) where
  token : ℕ
  logit : L
  text : Option T

/-- The tokens and the positions that the slots from 0 on are given in one step. -/
abbrev Feed := List (ℕ × ℕ)

/-- A replay runtime with the buffers of its caller; `feeds` is what it has been given so far. -/
structure Run (S L T : Type) where
  slots : ℕ → S
  used : Bool
  feeds : List Feed
  outputs : ℕ → Output L T
  counts : ℕ → ℕ

structure Options where
  kvCtxTokens : ℕ
  kvActiveSlots : ℕ

/-- `replay_batch_slot_plan`. -/
structure BatchSlotPlan where
  promptIdx : ℕ
  promptLen : ℕ

abbrev Gen (S L T : Type) := EStateM String (Run S L T)

variable {S L T : Type} (E : Engine S L T)

/-- A runtime that was not used, with the buffers of a caller. -/
def Engine.fresh (outputs : ℕ → Output L T) (counts : ℕ → ℕ) : Run S L T where
  slots := fun _ => E.start
  used := false
  feeds := []
  outputs := outputs
  counts := counts

section Steps

/-- `replay_feed_token_batch_selected`: a slot of the batch takes one step of its own. -/
def feedTokenBatch (feed : Feed) : Gen S L T PUnit :=
  modify fun r => { r with
    slots := fun slot => feed[slot]?.elim (r.slots slot) fun x => E.decode (r.slots slot) x.1 x.2
    feeds := r.feeds ++ [feed] }

/-- `replay_feed_token`, which knows slot 0 only. -/
def feedToken (token position : ℕ) : Gen S L T PUnit := feedTokenBatch E [(token, position)]

/-- A selected token goes to its cell; without a text the cell keeps a null one. -/
def emit (cell : ℕ) (picked : ℕ × L) : Gen S L T PUnit := do
  let text := E.tokenText picked.1
  modify fun r => { r with outputs := Function.update r.outputs cell ⟨picked.1, picked.2, text⟩ }
  require text.isSome "failed to decode selected token text"

/-- `replay_select_token_slot`. -/
def selectTokenSlot (slot cell : ℕ) : Gen S L T PUnit := do
  let r ← get
  emit E cell (E.select (r.slots slot))

def emitAll : List (ℕ × ℕ × L) → Gen S L T PUnit
  | [] => pure ⟨⟩
  | x :: xs => do
      emit E x.1 x.2
      emitAll xs

/-- `replay_select_token_batch`: every slot is read before the first output is written. -/
def selectTokenBatch (plan : List BatchSlotPlan) (step stride : ℕ) : Gen S L T PUnit :=
  match plan with
  | [p] => selectTokenSlot E 0 (p.promptIdx * stride + step)
  | plan => do
      let r ← get
      emitAll E (plan.zipIdx.map fun x =>
        (x.1.promptIdx * stride + step, E.select (r.slots x.2)))

def promptToken (v : ℤ) : Gen S L T ℕ :=
  if v < 0 then throw "negative prompt token" else pure v.toNat

end Steps

section Single

def feedPrompt : List ℤ → ℕ → Gen S L T PUnit
  | [], _ => pure ⟨⟩
  | v :: vs, pos => do
      let token ← promptToken v
      feedToken E token pos
      feedPrompt vs (pos + 1)

/-- The outputs from `i` on; the last one is not fed again. -/
def generateFrom (len : ℕ) : ℕ → ℕ → Gen S L T PUnit
  | 0, _ => pure ⟨⟩
  | left + 1, i => do
      selectTokenSlot E 0 i
      if left = 0 then return
      let r ← get
      feedToken E (r.outputs i).token ((len + i) % 2 ^ 32)
      generateFrom len left (i + 1)

/-- `ds4_replay_generate`; the count goes to `counts 0`. -/
def generate (o : Options) (prompt : List ℤ) (maxTokens outputCap : ℕ) : Gen S L T PUnit := do
  modify fun r => { r with counts := Function.update r.counts 0 0 }
  require (prompt.length ≠ 0 && outputCap ≠ 0 && maxTokens ≠ 0)
    "missing V100 replay generation input"
  require (maxTokens ≤ outputCap) "V100 replay output buffer too small"
  let r ← get
  require (!r.used) "V100 replay runtime is one-shot; reopen it for another prompt"
  require (o.kvCtxTokens = 0 || prompt.length + maxTokens ≤ o.kvCtxTokens)
    "V100 replay prompt exceeds configured context"
  feedPrompt E prompt 0
  generateFrom E prompt.length maxTokens 0
  modify fun r => { r with used := true, counts := Function.update r.counts 0 maxTokens }

end Single

section Batch

/-- An element moves down over the shorter ones behind it; the list runs from the back. -/
def moveDown (key : BatchSlotPlan) : List BatchSlotPlan → List BatchSlotPlan
  | [] => [key]
  | p :: ps => if p.promptLen < key.promptLen then p :: moveDown key ps else key :: p :: ps

/-- `replay_sort_batch_plan`. -/
def sortBatchPlan (plan : List BatchSlotPlan) : List BatchSlotPlan :=
  (plan.foldl (fun done key => moveDown key done) []).reverse

/-- The checks of the prompts, and the plan before it is sorted. -/
def planPrompts (o : Options) (maxTokens : ℕ) : List (List ℤ) → ℕ →
    Gen S L T (List BatchSlotPlan)
  | [], _ => pure []
  | p :: ps, i => do
      require (p.length ≠ 0) "batch prompt must contain at least one token"
      require (o.kvCtxTokens = 0 || p.length + maxTokens ≤ o.kvCtxTokens)
        "V100 replay prompt exceeds configured context"
      let rest ← planPrompts o maxTokens ps (i + 1)
      return ⟨i, p.length⟩ :: rest

/-- The tokens at a position, up to the first prompt that has ended. -/
def batchTokens (prompts : List (List ℤ)) (pos : ℕ) : List BatchSlotPlan → Gen S L T Feed
  | [] => pure []
  | p :: ps => do
      if p.promptLen ≤ pos then return []
      let token ← promptToken ((prompts.getD p.promptIdx []).getD pos 0)
      let rest ← batchTokens prompts pos ps
      return (token, pos) :: rest

def feedPrompts (prompts : List (List ℤ)) (plan : List BatchSlotPlan) : ℕ → ℕ → Gen S L T PUnit
  | 0, _ => pure ⟨⟩
  | left + 1, pos => do
      let feed ← batchTokens prompts pos plan
      if feed.length ≠ 0 then feedTokenBatch E feed
      feedPrompts prompts plan left (pos + 1)

def setCounts (plan : List BatchSlotPlan) (count : ℕ) : Gen S L T PUnit :=
  modify fun r => { r with
    counts := fun i => if i ∈ plan.map (·.promptIdx) then count else r.counts i }

/-- What the slots go on with: the last output of their prompt. -/
def lastOutputs (plan : List BatchSlotPlan) (step stride : ℕ) (r : Run S L T) : Feed :=
  plan.map fun p => ((r.outputs (p.promptIdx * stride + (step - 1))).token,
    (p.promptLen + step - 1) % 2 ^ 32)

def continueBatch (plan : List BatchSlotPlan) (stride : ℕ) : ℕ → ℕ → Gen S L T PUnit
  | 0, _ => pure ⟨⟩
  | left + 1, step => do
      let r ← get
      feedTokenBatch E (lastOutputs plan step stride r)
      selectTokenBatch E plan step stride
      setCounts plan (step + 1)
      continueBatch plan stride left (step + 1)

/-- `ds4_replay_generate_batch`. -/
def generateBatch (o : Options) (prompts : List (List ℤ)) (maxTokens stride : ℕ) :
    Gen S L T PUnit := do
  require (prompts.length ≠ 0 && maxTokens ≠ 0 && maxTokens ≤ stride &&
    prompts.length ≤ Stage.maxSlots) "missing V100 replay batch generation input"
  require (prompts.length ≤ o.kvActiveSlots) "batch prompt count exceeds configured slots"
  let r ← get
  require (!r.used) "V100 replay runtime is one-shot; reopen it for another prompt"
  let plan ← planPrompts o maxTokens prompts 0
  let maxPromptLen := plan.foldl (fun m p => max m p.promptLen) 0
  let plan := sortBatchPlan plan
  feedPrompts E prompts plan maxPromptLen 0
  setCounts plan 0
  selectTokenBatch E plan 0 stride
  setCounts plan 1
  continueBatch E plan stride (maxTokens - 1) 1
  modify fun r => { r with used := true }

end Batch

end Ds4.Replay
