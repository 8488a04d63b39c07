import Ds4.Parts.Rows
import Ds4.Parts.TopK
import Ds4.Routing.Planner
import Mathlib.Algebra.BigOperators.Group.Finset.Defs
import Mathlib.Algebra.Field.Defs

/-! The router's choice of experts: the six of the greatest biased score, or those of a hash
table. -/
namespace Ds4.Routing

open Parts

def kModelTopK : ℕ := 6

/-- What the selection kernels read. The scores are numbers of any ordered field. -/
structure RouterInputs (F : Type) where
  logits : ℕ → F
  bias : Option (ℕ → F)
  hash : Option (ℕ → ℤ)
  tokens : Option (ℕ → ℕ)
  active : Option (ℕ → ℕ)
  hashRows : ℕ
  slots : ℕ

/-- The cells of one slot in the two outputs. -/
structure RouterRow (F : Type) where
  selected : ℕ → ℤ
  weights : ℕ → F

section Kernels
variable {F : Type} [Field F] [LinearOrder F] (act : F → F) (inp : RouterInputs F)

namespace RouterInputs

def logit (slot e : ℕ) : F := inp.logits (slot * kGlobalExperts + e)

def isInactive (slot : ℕ) : Bool := inp.active.any fun active => active slot = 0

/-- The entry of the hash table for a token; one beyond the table has that of the first. -/
def hashRow (hash : ℕ → ℤ) (tokens : ℕ → ℕ) (slot k : ℕ) : ℤ :=
  let tok := tokens slot
  hash ((if inp.hashRows ≤ tok then 0 else tok) * kModelTopK + k)

end RouterInputs

/-- The sum that the weights are divided by is not below this. -/
def minSum : F := 1 / 16384

attribute [local instance] atLeastTwo_two in
/-- The weights are scaled by this. -/
def routeScale : F := 3 / 2

/-- The weights of six scores. -/
def routeWeights (w : ℕ → F) : ℕ → F :=
  let sum := (List.range kModelTopK).foldl (fun sum k => sum + w k) 0
  let sum := if sum < minSum then minSum else sum
  fun k => w k / sum * routeScale

def inactiveRow : RouterRow F := ⟨fun _ => -1, fun _ => 0⟩

/-- The hash branch of `router_select_topk_rows_kernel`: all activations come first. -/
def hashBranchRow (hash : ℕ → ℤ) (tokens : ℕ → ℕ) (slot : ℕ) : RouterRow F :=
  let prob := fun e => act (inp.logit slot e)
  let hrow := inp.hashRow hash tokens slot
  ⟨hrow, routeWeights fun k => if 0 ≤ hrow k ∧ hrow k < kGlobalExperts then prob (hrow k).toNat
    else 0⟩

/-- The three arrays of the selection loop. `⊥` is `-INFINITY`. -/
structure TopExperts (F : Type) where
  best : ℕ → ℤ
  bestScore : ℕ → WithBot F
  bestProb : ℕ → F

def TopExperts.init : TopExperts F := ⟨fun _ => -1, fun _ => ⊥, fun _ => 0⟩

/-- One expert in the selection loop. -/
def topStep (slot : ℕ) (st : TopExperts F) (e : ℕ) : TopExperts F :=
  let p := act (inp.logit slot e)
  let score : F := p + (inp.bias.elim 0 fun bias => bias e)
  match placeFirst kModelTopK fun k => st.bestScore k < score with
  | none => st
  | some k =>
      ⟨place kModelTopK st.best k e, place kModelTopK st.bestScore k score,
        place kModelTopK st.bestProb k p⟩

def topRow (slot : ℕ) : RouterRow F :=
  let st := (List.range kGlobalExperts).foldl (topStep act inp slot) TopExperts.init
  ⟨st.best, routeWeights st.bestProb⟩

/-- What `router_select_topk_rows_kernel` writes for a slot. -/
def routerSelectTopkRow (slot : ℕ) : RouterRow F :=
  if inp.isInactive slot then inactiveRow
  else
    match inp.hash, inp.tokens with
    | some hash, some tokens =>
        if 0 < inp.hashRows then hashBranchRow act inp hash tokens slot else topRow act inp slot
    | _, _ => topRow act inp slot

/-- What `router_select_hash_fast_rows_kernel` writes for a slot. -/
def routerSelectHashFastRow (hash : ℕ → ℤ) (tokens : ℕ → ℕ) (slot : ℕ) : RouterRow F :=
  if inp.isInactive slot then inactiveRow
  else
    let hrow := inp.hashRow hash tokens slot
    ⟨hrow, routeWeights fun k =>
      if 0 ≤ hrow k ∧ hrow k < kGlobalExperts then act (inp.logit slot (hrow k).toNat) else 0⟩

/-- The outputs of a launch over all slots, whose blocks run in any order. -/
def selectRows (sched : Schedule) (row : ℕ → RouterRow F) (slots : ℕ)
    (mem : (ℕ → ℤ) × (ℕ → F)) : (ℕ → ℤ) × (ℕ → F) :=
  (launch sched (rowStores kModelTopK slots fun slot => (row slot).selected) mem.1,
    launch sched (rowStores kModelTopK slots fun slot => (row slot).weights) mem.2)

def routerSelectTopkRows (sched : Schedule) : (ℕ → ℤ) × (ℕ → F) → (ℕ → ℤ) × (ℕ → F) :=
  selectRows sched (routerSelectTopkRow act inp) inp.slots

def routerSelectHashFastRows (sched : Schedule) (hash : ℕ → ℤ) (tokens : ℕ → ℕ) :
    (ℕ → ℤ) × (ℕ → F) → (ℕ → ℤ) × (ℕ → F) :=
  selectRows sched (routerSelectHashFastRow act inp hash tokens) inp.slots

end Kernels

section Choice
variable {F : Type} [Field F] [LinearOrder F] (act : F → F) (inp : RouterInputs F) (slot : ℕ)

/-- The score an expert is weighted with, and the one it is chosen by. -/
def unbiased (e : ℕ) : F := act (inp.logit slot e)

def biased (e : ℕ) : F := unbiased act inp slot e + inp.bias.elim 0 fun bias => bias e

/-- The greater biased score is first, and the lower expert of two equal ones. -/
def Precedes (e e' : ℕ) : Prop :=
  biased act inp slot e' < biased act inp slot e ∨
    biased act inp slot e' = biased act inp slot e ∧ e < e'

/-- The choice of a row: six experts in order, ahead of all others, with their scaled scores. -/
structure IsChoice (row : RouterRow F) (chosen : ℕ → ℕ) : Prop where
  expert : ∀ k < kModelTopK, chosen k < kGlobalExperts
  selected : ∀ k < kModelTopK, row.selected k = chosen k
  distinct : ∀ j < kModelTopK, ∀ k < kModelTopK, chosen j = chosen k → j = k
  sorted : ∀ j k, j < k → k < kModelTopK → Precedes act inp slot (chosen j) (chosen k)
  ahead : ∀ e < kGlobalExperts, (∀ k < kModelTopK, chosen k ≠ e) →
    ∀ k < kModelTopK, Precedes act inp slot (chosen k) e
  weights : ∀ k < kModelTopK, row.weights k =
    unbiased act inp slot (chosen k) /
      max (∑ j ∈ Finset.range kModelTopK, unbiased act inp slot (chosen j)) minSum * routeScale

/-- The three entries of a cell. -/
abbrev Entry (F : Type) : Type := ℤ × WithBot F × F

def entryOf (e : ℕ) : Entry F := (e, (biased act inp slot e : F), unbiased act inp slot e)

end Choice

end Ds4.Routing
