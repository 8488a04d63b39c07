import Ds4.Head.ShardTop1
import Ds4.Parts.Rows

/-! When the token chosen among the shards is that of the whole vocabulary. -/
namespace Ds4.Head

open Parts

section Unsharded
variable {F : Type} [LinearOrder F] [OrderBot F] {row : LogitRow F} {i j : ℕ}

/-- The lowest of the tokens with the greatest finite logit. -/
structure LogitRow.IsArgmax (row : LogitRow F) (i : ℕ) : Prop where
  admitted : i ∈ row.admissible
  precedes : ∀ x ∈ row.admissible, x ≠ i → row.Precedes i x

theorem LogitRow.IsArgmax.unique (h : row.IsArgmax i) (h' : row.IsArgmax j) : i = j := by
  by_contra hne
  rcases h.precedes j h'.admitted (Ne.symm hne) with hlt | ⟨heq, hlt⟩
  · rcases h'.precedes i h.admitted hne with hlt' | ⟨heq', -⟩
    · exact lt_asymm hlt hlt'
    · exact hlt.ne heq'.symm
  · rcases h'.precedes i h.admitted hne with hlt' | ⟨-, hlt'⟩
    · exact hlt'.ne heq.symm
    · exact lt_asymm hlt hlt'

/-- The insertion of one token finds it, if any logit is finite. -/
theorem top_isArgmax (row : LogitRow F) :
    (row.admissible = [] ∧ (row.topkFromLogits 1).tokens 0 = uint32Max) ∨
      row.IsArgmax ((row.topkFromLogits 1).tokens 0) := by
  have h := topkFromLogits_isTopk row 1
  cases hempty : row.admissible with
  | nil =>
    have hlen : row.admissible.length ≤ 0 := by rw [hempty]; exact le_rfl
    exact Or.inl ⟨rfl, (h.rest 0 (by norm_num) hlen).1⟩
  | cons x xs =>
    have hpos : 0 < min 1 row.admissible.length := by
      rw [hempty, List.length_cons]
      omega
    refine Or.inr ⟨h.admitted 0 hpos, fun y hy hne => h.ahead y hy (fun j hj => ?_) 0 hpos⟩
    obtain rfl : j = 0 := by omega
    exact hne.symm

omit [LinearOrder F] [OrderBot F] in
theorem admitted_ne_max (h : i ∈ row.admissible) : i ≠ uint32Max := by
  have hlt := (mem_admissible.1 h).1
  have := row.vocab_lt
  unfold uint32Max
  omega

end Unsharded

namespace ShardedHead
variable {F : Type} [LinearOrder F] [OrderBot F] (head : ShardedHead F) (slot : ℕ)

/-- The thread that reads a token's logit in the kernel of its shard. -/
def lane (token : ℕ) : ℕ := token % head.rowsPerGpu % blockDim

/-- The tokens of a GPU. -/
def shardOf (token : ℕ) : ℕ := token / head.rowsPerGpu

/-- The best token wins: its logit is above `-FLT_MAX`, its shard has no infinite one, and each of
its equals there is read by its own thread or by one with a higher low bit. -/
def LowestWins : Prop :=
  (head.row slot).admissible = [] ∨ ∃ i, (head.row slot).IsArgmax i ∧
    ((⊥ : F) : WithTop F) < ((head.row slot).logit i).key ∧
    ∀ j < head.vocab, head.shardOf j = head.shardOf i → (head.row slot).logit j ≠ .posInf ∧
      ((head.row slot).logit j = (head.row slot).logit i →
        head.lane j = head.lane i ∨ LowBitFirst (head.lane i) (head.lane j))

variable {head slot} {gpu i token : ℕ}

omit [LinearOrder F] [OrderBot F] in
theorem row_logit (hi : i < head.rowsPerGpu) : (head.row slot).logit (gpu * head.rowsPerGpu + i) =
    head.logits gpu (slot * head.rowsPerGpu + i) := by
  unfold row
  simp only [entry_div hi, entry_mod hi]

omit [LinearOrder F] [OrderBot F] in
/-- A token is an index of its shard. -/
theorem token_eq (head : ShardedHead F) (token : ℕ) :
    token = head.shardOf token * head.rowsPerGpu + token % head.rowsPerGpu :=
  (Nat.div_add_mod' token head.rowsPerGpu).symm

omit [LinearOrder F] [OrderBot F] in
theorem shardOf_lt (h : token < head.vocab) : head.shardOf token < kGpus :=
  Nat.div_lt_of_lt_mul (Nat.mul_comm _ _ ▸ h)

/-- What a GPU offers. -/
theorem offer_spec (head : ShardedHead F) (slot gpu : ℕ) :
    ((head.offer slot gpu).2.key = ((⊥ : F) : WithTop F) ∧ ∀ i < head.rowsPerGpu,
        ((head.row slot).logit (gpu * head.rowsPerGpu + i)).key = ((⊥ : F) : WithTop F)) ∨
      ∃ i, head.offer slot gpu =
          (gpu * head.rowsPerGpu + i, (head.row slot).logit (gpu * head.rowsPerGpu + i)) ∧
        Settled (fun i => (head.row slot).logit (gpu * head.rowsPerGpu + i)) head.rowsPerGpu i := by
  have hrow : ∀ i < head.rowsPerGpu, (head.row slot).logit (gpu * head.rowsPerGpu + i) =
      head.logits gpu (slot * head.rowsPerGpu + i) := fun i hi => row_logit hi
  rcases blockBest_spec (fun i => head.logits gpu (slot * head.rowsPerGpu + i)) head.rowsPerGpu with
    ⟨hnone, hall⟩ | ⟨i, hbest, hsettled⟩
  · refine Or.inl ⟨?_, fun i hi => ?_⟩
    · unfold offer shardTop1
      rw [hnone]
      rfl
    · rw [hrow i hi]
      exact hall i hi
  · refine Or.inr ⟨i, ?_, hsettled.lt, ?_, ?_, ?_⟩
    · unfold offer shardTop1
      rw [hbest, hrow i hsettled.lt]
    · rw [hrow i hsettled.lt]
      exact hsettled.above
    · intro j hj
      rw [hrow i hsettled.lt, hrow j hj]
      exact hsettled.greatest j hj
    · intro j hj
      rw [hrow i hsettled.lt, hrow j hj]
      exact hsettled.first j hj

/-- An offer above `-FLT_MAX` is a token of the GPU with its logit. -/
theorem offer_token (hgpu : gpu ∈ head.offering slot)
    (habove : ((⊥ : F) : WithTop F) < (head.offer slot gpu).2.key) :
    ∃ i, head.offer slot gpu =
        (gpu * head.rowsPerGpu + i, (head.row slot).logit (gpu * head.rowsPerGpu + i)) ∧
      Settled (fun i => (head.row slot).logit (gpu * head.rowsPerGpu + i)) head.rowsPerGpu i ∧
      gpu * head.rowsPerGpu + i ∈ (head.row slot).admissible := by
  obtain ⟨hlt, hfinite⟩ := (mem_offering head slot).1 hgpu
  rcases offer_spec head slot gpu with ⟨hbot, -⟩ | ⟨i, hoffer, hsettled⟩
  · exact absurd hbot habove.ne'
  · rw [hoffer] at hfinite
    exact ⟨i, hoffer, hsettled, mem_admissible.2 ⟨entry_lt hlt hsettled.lt, hfinite⟩⟩

theorem lowestWins_of_eq (h : head.shardedToken slot = head.unshardedToken slot) :
    head.LowestWins slot := by
  rcases top_isArgmax (head.row slot) with ⟨hempty, -⟩ | hmax
  · exact Or.inl hempty
  · change (head.row slot).IsArgmax (head.unshardedToken slot) at hmax
    rw [← h] at hmax
    rcases head.shardedToken_spec slot with ⟨htoken, -⟩ | ⟨gpu, hgpu, htoken, habove, -⟩
    · exact absurd htoken (admitted_ne_max hmax.admitted)
    · obtain ⟨i, hoffer, hsettled, -⟩ := offer_token hgpu habove
      rw [hoffer] at htoken habove
      rw [htoken] at hmax
      refine Or.inr ⟨_, hmax, habove, fun j hj hshard => ?_⟩
      have hj' : j = gpu * head.rowsPerGpu + j % head.rowsPerGpu := by
        have hown : head.shardOf j = gpu := hshard.trans (entry_div hsettled.lt)
        rw [← hown]
        exact token_eq head j
      have hlocal : j % head.rowsPerGpu < head.rowsPerGpu := Nat.mod_lt _ head.rows_pos
      constructor
      · intro hinf
        have htop := hsettled.greatest _ hlocal
        have hfinite := (mem_admissible.1 hmax.admitted).2
        simp only [← hj', hinf] at htop
        cases hlogit : (head.row slot).logit (gpu * head.rowsPerGpu + i) with
        | finite x =>
          rw [hlogit] at htop
          exact absurd htop (not_le.2 (WithTop.coe_lt_top x))
        | posInf | negInf | nan =>
          rw [hlogit] at hfinite
          cases hfinite
      · intro hsame
        have hfirst := hsettled.first _ hlocal
        simp only [← hj', hsame, forall_const] at hfirst
        unfold lane
        rw [entry_mod hsettled.lt]
        exact hfirst.imp_left And.left

/-- In the shard of the best token the block settles on it. -/
theorem settled_of_argmax (hmax : (head.row slot).IsArgmax token)
    (habove : ((⊥ : F) : WithTop F) < ((head.row slot).logit token).key)
    (hlow : ∀ j < head.vocab, head.shardOf j = head.shardOf token →
      (head.row slot).logit j ≠ .posInf ∧ ((head.row slot).logit j = (head.row slot).logit token →
        head.lane j = head.lane token ∨ LowBitFirst (head.lane token) (head.lane j))) :
    Settled (fun i => (head.row slot).logit (head.shardOf token * head.rowsPerGpu + i))
      head.rowsPerGpu (token % head.rowsPerGpu) := by
  obtain ⟨htoken, hfinite⟩ := mem_admissible.1 hmax.admitted
  have hshard := shardOf_lt htoken
  -- the other tokens of the shard stand behind it, if they are taken at all
  have hrest : ∀ j < head.rowsPerGpu,
      ((head.row slot).logit (head.shardOf token * head.rowsPerGpu + j)).key =
          ((⊥ : F) : WithTop F) ∨
        (head.shardOf token * head.rowsPerGpu + j ≠ token →
          (head.row slot).Precedes token (head.shardOf token * head.rowsPerGpu + j)) ∧
        ((head.row slot).logit (head.shardOf token * head.rowsPerGpu + j)).isFinite = true := by
    intro j hj
    have hvocab : head.shardOf token * head.rowsPerGpu + j < head.vocab := entry_lt hshard hj
    have hinf := (hlow _ hvocab (entry_div hj)).1
    cases hlogit : (head.row slot).logit (head.shardOf token * head.rowsPerGpu + j) with
    | finite x =>
      refine Or.inr ⟨fun hne => hmax.precedes _ (mem_admissible.2 ⟨hvocab, ?_⟩) hne, rfl⟩
      rw [hlogit]
      rfl
    | posInf => exact absurd hlogit hinf
    | negInf | nan => exact Or.inl rfl
  refine ⟨Nat.mod_lt _ head.rows_pos, ?_, fun j hj => ?_, fun j hj htie => ?_⟩
  · rw [← token_eq]
    exact habove
  · rw [← token_eq]
    rcases hrest j hj with hbot | ⟨hprec, -⟩
    · rw [hbot]
      exact habove.le
    · by_cases hself : head.shardOf token * head.rowsPerGpu + j = token
      · rw [hself]
      · rcases hprec hself with hlt | ⟨heq, -⟩
        · exact hlt.le
        · exact heq.le
  · rw [← token_eq] at htie
    rcases hrest j hj with hbot | ⟨hprec, hjfinite⟩
    · rw [hbot] at htie
      exact absurd htie habove.ne
    · have hvocab : head.shardOf token * head.rowsPerGpu + j < head.vocab := entry_lt hshard hj
      have hsame := Logit.eq_of_key hjfinite hfinite htie
      have hlane := (hlow _ hvocab (entry_div hj)).2 hsame
      have hle : token % head.rowsPerGpu ≤ j := by
        have htoken' := token_eq head token
        by_cases hself : head.shardOf token * head.rowsPerGpu + j = token
        · omega
        · rcases hprec hself with hlt | ⟨-, hlt⟩
          · exact absurd htie hlt.ne
          · omega
      unfold lane at hlane
      rw [entry_mod hj] at hlane
      exact hlane.imp_left fun hmod => ⟨hmod, hle⟩

theorem eq_of_lowestWins (h : head.LowestWins slot) :
    head.shardedToken slot = head.unshardedToken slot := by
  rcases h with hempty | ⟨token, hmax, habove, hlow⟩
  · have hunsharded : head.unshardedToken slot = uint32Max := by
      rcases top_isArgmax (head.row slot) with ⟨-, hmax⟩ | hmax
      · exact hmax
      · have hin := hmax.admitted
        rw [hempty] at hin
        cases hin
    rcases head.shardedToken_spec slot with ⟨htoken, -⟩ | ⟨gpu, hgpu, -, habove, -⟩
    · exact htoken.trans hunsharded.symm
    · obtain ⟨i, -, -, hin⟩ := offer_token hgpu habove
      rw [hempty] at hin
      cases hin
  · have hunsharded : head.unshardedToken slot = token := by
      rcases top_isArgmax (head.row slot) with ⟨hempty, -⟩ | hmax'
      · have hin := hmax.admitted
        rw [hempty] at hin
        cases hin
      · exact hmax'.unique hmax
    have hsettled := settled_of_argmax hmax habove hlow
    obtain ⟨htoken, hfinite⟩ := mem_admissible.1 hmax.admitted
    -- its GPU offers it
    have hoffer : head.offer slot (head.shardOf token) = (token, (head.row slot).logit token) := by
      rcases offer_spec head slot (head.shardOf token) with ⟨-, hbot⟩ | ⟨i, hoffer, hsettled'⟩
      · have := hbot _ hsettled.lt
        rw [← token_eq] at this
        exact absurd this habove.ne'
      · rw [hoffer, hsettled'.unique hsettled, ← token_eq]
    have hin : head.shardOf token ∈ head.offering slot :=
      (mem_offering head slot).2 ⟨shardOf_lt htoken, by rw [hoffer]; exact hfinite⟩
    rw [hunsharded]
    rcases head.shardedToken_spec slot with ⟨-, hbot⟩ | ⟨gpu, hgpu, hchosen, habove', hgreatest⟩
    · have := hbot _ hin
      rw [hoffer] at this
      exact absurd this habove.ne'
    · obtain ⟨i, hoffer', hsettled', hadmitted⟩ := offer_token hgpu habove'
      obtain ⟨hle, htie⟩ := hgreatest _ hin
      rw [hoffer, hoffer'] at hle htie
      rw [hchosen, hoffer']
      by_contra hne
      rcases hmax.precedes _ hadmitted hne with hlt | ⟨heq, hlt⟩
      · exact absurd hlt (not_lt.2 hle)
      · have hgpus : gpu ≤ head.shardOf token := htie heq.symm
        have hgpus' : head.shardOf token ≤ gpu := by
          have hown : (gpu * head.rowsPerGpu + i) / head.rowsPerGpu = gpu := entry_div hsettled'.lt
          have hdiv : token / head.rowsPerGpu ≤ (gpu * head.rowsPerGpu + i) / head.rowsPerGpu :=
            Nat.div_le_div_right hlt.le
          exact hdiv.trans hown.le
        obtain rfl := le_antisymm hgpus hgpus'
        rw [hoffer] at hoffer'
        exact hne (congrArg Prod.fst hoffer').symm

variable (head) in
/-- The head names the same tokens by all its ways: the insertion returns the top tokens, with the
scheduler refusing logits that are not finite, and the shards choose what the insertion does. -/
structure NamesOneToken : Prop where
  topk : ∀ slot < head.slots, ∀ k, (head.row slot).IsTopk k ((head.row slot).topkFromLogits k)
  scheduler :
    ∀ slot < head.slots, ∀ k, (∀ i < head.vocab, ((head.row slot).logit i).isFinite = true) →
    ∃ out, (head.row slot).selectTopk k = .ok out ∧ (head.row slot).IsTopk k out
  refused :
    ∀ slot < head.slots, ∀ k, (∃ i < head.vocab, ((head.row slot).logit i).isFinite = false) →
    (head.row slot).selectTopk k = .error "output-head logits contained non-finite values"
  top1 : ∀ slot < head.slots, head.shardedToken slot = head.unshardedToken slot

/-- The tokens agree exactly if in every slot the best one wins its shard. -/
theorem namesOneToken_iff (head : ShardedHead F) :
    head.NamesOneToken ↔ ∀ slot < head.slots, head.LowestWins slot := by
  refine ⟨fun h slot hslot => lowestWins_of_eq (h.top1 slot hslot), fun h => ⟨?_, ?_, ?_, ?_⟩⟩
  · exact fun slot _ k => topkFromLogits_isTopk _ k
  · intro slot _ k hfinite
    refine ⟨_, ?_, topkFromLogits_isTopk _ k⟩
    rw [selectTopk_eq]
    exact if_pos hfinite
  · rintro slot - k ⟨i, hi, hinf⟩
    rw [selectTopk_eq]
    refine if_neg fun hfinite => ?_
    rw [hfinite i hi] at hinf
    cases hinf
  · exact fun slot hslot => eq_of_lowestWins (h slot hslot)

end ShardedHead

/-- One slot of 24 tokens, three on each GPU, of which 1 and 2 have the greatest logit. -/
def tiedHead : ShardedHead ℕ where
  rowsPerGpu := 3
  slots := 1
  logits gpu i := .finite (if gpu = 0 ∧ 1 ≤ i then 2 else 1)
  rows_pos := by norm_num
  vocab_lt := by decide

theorem tiedHead_isArgmax : (tiedHead.row 0).IsArgmax 1 where
  admitted := mem_admissible.2 ⟨by decide, rfl⟩
  precedes x hx hne := by
    have hlogit : (tiedHead.row 0).logit 1 = .finite 2 := rfl
    have hother : (tiedHead.row 0).logit x =
        .finite (if x / 3 = 0 ∧ 1 ≤ 0 * 3 + x % 3 then 2 else 1) := rfl
    unfold LogitRow.Precedes
    rw [hlogit, hother]
    simp only [Logit.key, WithTop.coe_lt_coe, WithTop.coe_inj]
    split_ifs <;> omega

/-- The kernel takes the token of the even thread, the insertion the lower one. -/
theorem tiedHead_differs : ¬ tiedHead.NamesOneToken := by
  intro h
  rcases ShardedHead.lowestWins_of_eq (h.top1 0 (by decide)) with hempty | ⟨i, hmax, -, hlow⟩
  · have hin := tiedHead_isArgmax.admitted
    rw [hempty] at hin
    cases hin
  · obtain rfl := hmax.unique tiedHead_isArgmax
    have htie := (hlow 2 (by decide) rfl).2 rfl
    have hlane : tiedHead.lane 1 = 1 := rfl
    have hlane' : tiedHead.lane 2 = 2 := rfl
    rw [hlane, hlane'] at htie
    have hbit : LowBitFirst 2 1 := ⟨0, rfl⟩
    rcases htie with hsame | hbit'
    · cases hsame
    · exact hbit.asymm hbit'

end Ds4.Head
