import Ds4.Fold.Plan
import Mathlib.Tactic.NormNum

/-! The plan mirrors the chunk loop exactly while the chunks fit the table. -/
namespace Ds4.Fold

theorem s602MinChunkFor_bounds (count : ℕ) :
    0 < s602MinChunkFor count ∧ s602MinChunkFor count ≤ 1024 := by
  unfold s602MinChunkFor
  generalize doubleTo ((count + 15) % 2 ^ 64 / 16) 60 1 = p
  dsimp only
  split_ifs <;> omega

namespace FoldConfig
variable (cfg : FoldConfig) (count : ℕ)

section Chunks

theorem loop_pos : 0 < cfg.loop := Nat.mul_pos cfg.nchannels_pos (by decide)

theorem loop_le : cfg.loop ≤ 64 := Nat.mul_le_mul_right 8 cfg.nchannels_le

theorem minChunkOf_bounds : 0 < cfg.minChunkOf count ∧ cfg.minChunkOf count < 2 ^ 31 := by
  have hlt := cfg.minChunk_lt
  obtain ⟨hpos, hle⟩ := s602MinChunkFor_bounds count
  unfold minChunkOf
  split_ifs with hgiven
  · exact ⟨hgiven, hlt⟩
  · omega

theorem loopChunk_bounds : 0 < cfg.loop * cfg.minChunkOf count ∧
    cfg.loop * cfg.minChunkOf count ≤ 2 ^ 37 := by
  obtain ⟨hpos, hlt⟩ := cfg.minChunkOf_bounds count
  refine ⟨Nat.mul_pos cfg.loop_pos hpos, ?_⟩
  calc cfg.loop * cfg.minChunkOf count ≤ 64 * 2 ^ 31 := Nat.mul_le_mul cfg.loop_le hlt.le
    _ = 2 ^ 37 := by norm_num

variable {cfg count} {remaining : ℕ}

theorem rcs_le : cfg.rcs count remaining ≤ maxChunk := Nat.min_le_right _ _

theorem rcs_pos (h : 0 < remaining) : 0 < cfg.rcs count remaining := by
  obtain ⟨hpos, -⟩ := cfg.loopChunk_bounds count
  have hquot : 0 < (remaining + cfg.loop * cfg.minChunkOf count - 1) /
      (cfg.loop * cfg.minChunkOf count) := Nat.div_pos (by omega) hpos
  exact lt_min (Nat.mul_pos hquot (cfg.minChunkOf_bounds count).1) (by decide)

/-- Rounded up to whole loops of chunks, what is left is covered. -/
theorem le_roundUp (cfg : FoldConfig) (count remaining : ℕ) : remaining ≤ cfg.loop *
    ((remaining + cfg.loop * cfg.minChunkOf count - 1) / (cfg.loop * cfg.minChunkOf count) *
      cfg.minChunkOf count) := by
  obtain ⟨hpos, -⟩ := cfg.loopChunk_bounds count
  have hdiv := Nat.div_add_mod (remaining + cfg.loop * cfg.minChunkOf count - 1)
    (cfg.loop * cfg.minChunkOf count)
  have hmod := Nat.mod_lt (remaining + cfg.loop * cfg.minChunkOf count - 1) hpos
  have hassoc : cfg.loop *
      ((remaining + cfg.loop * cfg.minChunkOf count - 1) / (cfg.loop * cfg.minChunkOf count) *
        cfg.minChunkOf count) = cfg.loop * cfg.minChunkOf count *
      ((remaining + cfg.loop * cfg.minChunkOf count - 1) / (cfg.loop * cfg.minChunkOf count)) := by
    ring
  rw [hassoc]
  omega

/-- The last iteration covers what is left. -/
theorem rcs_last (h : remaining ≤ cfg.loop * maxChunk) :
    remaining ≤ cfg.loop * cfg.rcs count remaining := by
  unfold rcs
  rcases min_choice ((remaining + cfg.loop * cfg.minChunkOf count - 1) /
    (cfg.loop * cfg.minChunkOf count) * cfg.minChunkOf count) maxChunk with hmin | hmin
  · rw [hmin]
    exact cfg.le_roundUp count remaining
  · rw [hmin]
    exact h

/-- Every other one has chunks of the greatest size. -/
theorem rcs_full (h : cfg.loop * maxChunk < remaining) : cfg.rcs count remaining = maxChunk := by
  apply Nat.min_eq_right
  by_contra hsmall
  have hlt := Nat.mul_lt_mul_of_pos_left (not_le.1 hsmall) cfg.loop_pos
  have hcover := cfg.le_roundUp count remaining
  omega

/-- The code's chunk size is that of the loop, while the sum fits 64 bits. -/
theorem rcs64_eq (h : remaining + cfg.loop * cfg.minChunkOf count - 1 < 2 ^ 64) :
    cfg.rcs64 count remaining = cfg.rcs count remaining := by
  unfold rcs64 rcs
  simp only [Nat.mod_eq_of_lt h]
  split_ifs with hlarge
  · exact (Nat.min_eq_right hlarge.le).symm
  · exact (Nat.min_eq_left (not_lt.1 hlarge)).symm

/-- Where it does not, the chunks are empty. -/
theorem rcs64_wrapped (hlt : remaining < 2 ^ 64)
    (h : 2 ^ 64 ≤ remaining + cfg.loop * cfg.minChunkOf count - 1) :
    cfg.rcs64 count remaining = 0 := by
  obtain ⟨hpos, hle⟩ := cfg.loopChunk_bounds count
  have hmod : (remaining + cfg.loop * cfg.minChunkOf count - 1) % 2 ^ 64 <
      cfg.loop * cfg.minChunkOf count := by omega
  unfold rcs64
  simp only [Nat.div_eq_of_lt hmod, Nat.zero_mul]
  exact if_neg (Nat.not_lt_zero _)

end Chunks

section Blocks
variable {cfg count} {k n : ℕ}

theorem fullIterations_spec (cfg : FoldConfig) (hcount : 0 < count) :
    cfg.fullIterations count * (cfg.loop * maxChunk) < count ∧
      cfg.lastElements count ≤ cfg.loop * maxChunk ∧ 0 < cfg.lastElements count := by
  have hpos : 0 < cfg.loop * maxChunk := Nat.mul_pos cfg.loop_pos (by decide)
  have hdiv := Nat.div_add_mod' (count - 1) (cfg.loop * maxChunk)
  have hmod := Nat.mod_lt (count - 1) hpos
  unfold lastElements fullIterations
  omega

/-- The iterations up to the last one begin at multiples of a whole loop. -/
theorem gridOffset_eq (hcount : 0 < count) (hk : k ≤ cfg.fullIterations count) :
    cfg.gridOffset count k = k * (cfg.loop * maxChunk) := by
  induction k with
  | zero => rw [Nat.zero_mul]; rfl
  | succ k ih =>
    have hoff := ih (Nat.le_of_succ_le hk)
    have hlt := (cfg.fullIterations_spec hcount).1
    have hmul :
        (k + 1) * (cfg.loop * maxChunk) ≤ cfg.fullIterations count * (cfg.loop * maxChunk) :=
      Nat.mul_le_mul_right _ hk
    rw [Nat.succ_mul] at hmul
    have hfull : cfg.rcs count (count - k * (cfg.loop * maxChunk)) = maxChunk :=
      rcs_full (by omega)
    rw [gridOffset, hoff, hfull, Nat.succ_mul]

theorem gridOffset_last (hcount : 0 < count) :
    count - cfg.gridOffset count (cfg.fullIterations count) = cfg.lastElements count := by
  rw [gridOffset_eq hcount le_rfl]
  rfl

/-- The begin of the `n`-th chunk, counted through all iterations and channels. -/
def flatBegin (cfg : FoldConfig) (count n : ℕ) : ℕ :=
  cfg.gridOffset count (n / cfg.loop) + n % cfg.loop * cfg.chunkSize count (n / cfg.loop)

/-- A chunk is followed by the next one, also from one iteration to the next. -/
theorem flatBegin_succ (cfg : FoldConfig) (count n : ℕ) : cfg.flatBegin count (n + 1) =
    cfg.flatBegin count n + cfg.chunkSize count (n / cfg.loop) := by
  have hpos := cfg.loop_pos
  have hmod := Nat.mod_lt n hpos
  have hdiv := Nat.div_add_mod n cfg.loop
  unfold flatBegin
  by_cases hin : n % cfg.loop + 1 < cfg.loop
  · have hsplit : n + 1 = cfg.loop * (n / cfg.loop) + (n % cfg.loop + 1) := by omega
    have hquot : (n + 1) / cfg.loop = n / cfg.loop := by
      rw [hsplit, Nat.mul_add_div hpos, Nat.div_eq_of_lt hin, Nat.add_zero]
    have hrest : (n + 1) % cfg.loop = n % cfg.loop + 1 := by
      rw [hsplit, Nat.mul_add_mod, Nat.mod_eq_of_lt hin]
    rw [hquot, hrest, Nat.succ_mul, Nat.add_assoc]
  · have hsplit : n + 1 = cfg.loop * (n / cfg.loop + 1) := by
      rw [Nat.mul_succ]
      omega
    have hquot : (n + 1) / cfg.loop = n / cfg.loop + 1 := by
      rw [hsplit, Nat.mul_div_cancel_left _ hpos]
    have hrest : (n + 1) % cfg.loop = 0 := by rw [hsplit, Nat.mul_mod_right]
    have hlast : cfg.loop = n % cfg.loop + 1 := by omega
    have hwhole : cfg.loop * cfg.chunkSize count (n / cfg.loop) =
        n % cfg.loop * cfg.chunkSize count (n / cfg.loop) + cfg.chunkSize count (n / cfg.loop) :=
      (congrArg (· * cfg.chunkSize count (n / cfg.loop)) hlast).trans (Nat.succ_mul _ _)
    rw [hquot, hrest, Nat.zero_mul, Nat.add_zero, Nat.add_assoc, ← hwhole]
    rfl

theorem flatBegin_mono (cfg : FoldConfig) (count : ℕ) : Monotone (cfg.flatBegin count) :=
  monotone_nat_of_le_succ fun n => (cfg.flatBegin_succ count n).symm ▸ Nat.le_add_right _ _

theorem flatBegin_lt_succ (h : cfg.flatBegin count n < count) :
    cfg.flatBegin count n < cfg.flatBegin count (n + 1) := by
  have hoff : cfg.gridOffset count (n / cfg.loop) ≤ cfg.flatBegin count n := Nat.le_add_right _ _
  have hpos : 0 < cfg.chunkSize count (n / cfg.loop) := rcs_pos (by omega)
  rw [flatBegin_succ]
  omega

/-- The chunks of the last iteration. -/
theorem flatBegin_last (cfg : FoldConfig) (hcount : 0 < count) {j : ℕ} (hj : j ≤ cfg.loop) :
    cfg.flatBegin count (cfg.fullIterations count * cfg.loop + j) =
      cfg.fullIterations count * (cfg.loop * maxChunk) +
        j * cfg.rcs count (cfg.lastElements count) := by
  have hpos := cfg.loop_pos
  induction j with
  | zero =>
    unfold flatBegin
    rw [Nat.add_zero, Nat.mul_div_cancel _ hpos, Nat.mul_mod_left, Nat.zero_mul, Nat.zero_mul,
      gridOffset_eq hcount le_rfl]
  | succ j ih =>
    have hquot :
        (cfg.fullIterations count * cfg.loop + j) / cfg.loop = cfg.fullIterations count := by
      rw [Nat.mul_comm, Nat.mul_add_div hpos, Nat.div_eq_of_lt hj, Nat.add_zero]
    have hsize : cfg.chunkSize count (cfg.fullIterations count) =
        cfg.rcs count (cfg.lastElements count) := congrArg (cfg.rcs count) (gridOffset_last hcount)
    rw [← Nat.add_assoc, flatBegin_succ, ih (Nat.le_of_succ_le hj), hquot, hsize, Nat.succ_mul,
      Nat.add_assoc]

/-- As many chunks as are counted begin in front of the end. -/
theorem flatBegin_lt_iff (hcount : 0 < count) :
    cfg.flatBegin count n < count ↔ n < cfg.blockCount count := by
  obtain ⟨hlt, hle, hleft⟩ := cfg.fullIterations_spec hcount
  have hsize : 0 < cfg.rcs count (cfg.lastElements count) := rcs_pos hleft
  have hcover : cfg.lastElements count ≤ cfg.loop * cfg.rcs count (cfg.lastElements count) :=
    rcs_last hle
  have htotal :
      count = cfg.fullIterations count * (cfg.loop * maxChunk) + cfg.lastElements count := by
    unfold lastElements
    omega
  obtain ⟨q, hq⟩ : ∃ q, q = (cfg.lastElements count + cfg.rcs count (cfg.lastElements count) - 1) /
      cfg.rcs count (cfg.lastElements count) := ⟨_, rfl⟩
  have hdiv := Nat.div_add_mod (cfg.lastElements count + cfg.rcs count (cfg.lastElements count) - 1)
    (cfg.rcs count (cfg.lastElements count))
  have hmod :=
    Nat.mod_lt (cfg.lastElements count + cfg.rcs count (cfg.lastElements count) - 1) hsize
  rw [← hq, Nat.mul_comm] at hdiv
  -- the last iteration has `q` chunks: one fewer does not cover what is left
  have hcovers : cfg.lastElements count ≤ q * cfg.rcs count (cfg.lastElements count) := by omega
  have hqpos : 0 < q := by
    rw [hq]
    exact Nat.div_pos (by omega) hsize
  have hshort : (q - 1) * cfg.rcs count (cfg.lastElements count) < cfg.lastElements count := by
    rw [Nat.sub_mul, Nat.one_mul]
    omega
  have hqle : q ≤ cfg.loop := by
    by_contra hmore
    have hmul : cfg.loop * cfg.rcs count (cfg.lastElements count) ≤
        (q - 1) * cfg.rcs count (cfg.lastElements count) := Nat.mul_le_mul_right _ (by omega)
    omega
  have hblocks : cfg.blockCount count = cfg.fullIterations count * cfg.loop + q := by
    rw [hq]
    rfl
  have hlast := cfg.flatBegin_last hcount hqle
  have hprev := cfg.flatBegin_last hcount ((Nat.sub_le q 1).trans hqle)
  rw [hblocks]
  constructor
  · intro hbegin
    by_contra hn
    have hmono := cfg.flatBegin_mono count (not_lt.1 hn)
    omega
  · intro hn
    have hmono := cfg.flatBegin_mono count
      (show n ≤ cfg.fullIterations count * cfg.loop + (q - 1) by omega)
    omega

/-- A table that all chunks fit is one of few elements. -/
theorem count_le (h : cfg.blockCount count ≤ kS602MaxSegs) : count ≤ kS602MaxSegs * maxChunk := by
  rcases Nat.eq_zero_or_pos count with rfl | hcount
  · exact Nat.zero_le _
  have hgen : ∀ n, cfg.flatBegin count n ≤ n * maxChunk := by
    intro n
    induction n with
    | zero =>
      unfold flatBegin
      rw [Nat.zero_div, Nat.zero_mod, Nat.zero_mul, Nat.zero_mul]
      exact le_rfl
    | succ n ih =>
      have hle : cfg.chunkSize count (n / cfg.loop) ≤ maxChunk := rcs_le
      rw [flatBegin_succ, Nat.succ_mul]
      omega
  have hend : count ≤ cfg.flatBegin count (cfg.blockCount count) :=
    not_lt.1 fun hlt => lt_irrefl _ ((flatBegin_lt_iff hcount).1 hlt)
  calc count ≤ cfg.blockCount count * maxChunk := hend.trans (hgen _)
    _ ≤ kS602MaxSegs * maxChunk := Nat.mul_le_mul_right _ h

end Blocks

section Run
variable {cfg count} {k bid c n : ℕ} {p q : FoldPlan}

/-- The segment of the `n`-th chunk. -/
def flatSeg (cfg : FoldConfig) (count n : ℕ) : FoldSeg :=
  ⟨cfg.flatBegin count n, (n % kGpus + cfg.delta) % 8, n % cfg.loop / kGpus % cfg.nrings⟩

/-- The table behind the first `n` chunks, of which there is room for so many. -/
def tableOf (cfg : FoldConfig) (count room n : ℕ) : List FoldSeg :=
  (List.range (min n room)).map (cfg.flatSeg count)

/-- The room for the chunks that hold an element. -/
structure Room (cfg : FoldConfig) (count room : ℕ) : Prop where
  le : room ≤ kS602MaxSegs
  lt_iff : ∀ n, n < room ↔ cfg.flatBegin count n < count ∧ n < kS602MaxSegs
  -- with room left all numbers fit their 64 bits
  bounded : room < kS602MaxSegs → count + cfg.loop * maxChunk < 2 ^ 64

theorem bounded (h : cfg.blockCount count ≤ kS602MaxSegs) :
    count + cfg.loop * maxChunk < 2 ^ 64 := by
  have hcount := count_le h
  have hloop : cfg.loop * maxChunk ≤ 64 * maxChunk := Nat.mul_le_mul_right _ cfg.loop_le
  unfold kS602MaxSegs maxChunk at *
  omega

theorem room (cfg : FoldConfig) (hcount : 0 < count) :
    cfg.Room count (min (cfg.blockCount count) kS602MaxSegs) where
  le := min_le_right _ _
  lt_iff n := by rw [lt_min_iff, flatBegin_lt_iff hcount]
  bounded h := bounded ((min_lt_iff.1 h).resolve_right (lt_irrefl _)).le

variable {room : ℕ}

theorem length_tableOf (n : ℕ) : (cfg.tableOf count room n).length = min n room := by
  rw [tableOf, List.length_map, List.length_range]

theorem tableOf_succ (h : n < room) : cfg.tableOf count room (n + 1) =
    cfg.tableOf count room n ++ [cfg.flatSeg count n] := by
  unfold tableOf
  rw [Nat.min_eq_left h.le, Nat.min_eq_left h, List.range_succ, List.map_append, List.map_singleton]

/-- Behind its room the table does not change. -/
theorem tableOf_beyond {m : ℕ} (hn : room ≤ n) (hm : room ≤ m) :
    cfg.tableOf count room n = cfg.tableOf count room m := by
  unfold tableOf
  rw [Nat.min_eq_right hn, Nat.min_eq_right hm]

/-- The number of a channel's chunk among all. -/
theorem flat_index (hbid : bid < cfg.nchannels) (hc : c < kGpus) :
    (k * cfg.loop + bid * kGpus + c) / cfg.loop = k ∧
      (k * cfg.loop + bid * kGpus + c) % cfg.loop = bid * kGpus + c ∧
      (k * cfg.loop + bid * kGpus + c) % kGpus = c := by
  have hlt : bid * kGpus + c < cfg.loop := by
    calc bid * kGpus + c < (bid + 1) * kGpus := by
          rw [Nat.succ_mul]
          omega
      _ ≤ cfg.loop := Nat.mul_le_mul_right _ hbid
  have hassoc : k * cfg.loop + bid * kGpus + c = cfg.loop * k + (bid * kGpus + c) := by ring
  have hgpus : k * cfg.loop + bid * kGpus + c = kGpus * (k * cfg.nchannels + bid) + c := by
    unfold loop
    ring
  refine ⟨?_, ?_, ?_⟩
  · rw [hassoc, Nat.mul_add_div cfg.loop_pos, Nat.div_eq_of_lt hlt, Nat.add_zero]
  · rw [hassoc, Nat.mul_add_mod, Nat.mod_eq_of_lt hlt]
  · rw [hgpus, Nat.mul_add_mod, Nat.mod_eq_of_lt hc]

theorem flatSeg_eq (hbid : bid < cfg.nchannels) (hc : c < kGpus) :
    cfg.flatSeg count (k * cfg.loop + bid * kGpus + c) =
      ⟨cfg.blockBegin count k bid c, (c + cfg.delta) % 8, bid % cfg.nrings⟩ := by
  obtain ⟨hquot, hrest, hchunk⟩ := flat_index (k := k) hbid hc
  have hchannel : (bid * kGpus + c) / kGpus = bid := by
    rw [Nat.mul_comm, Nat.mul_add_div (by decide), Nat.div_eq_of_lt hc, Nat.add_zero]
  unfold flatSeg flatBegin
  rw [hquot, hrest, hchunk, hchannel]
  rfl

theorem flatBegin_eq (hbid : bid < cfg.nchannels) (hc : c < kGpus) :
    cfg.flatBegin count (k * cfg.loop + bid * kGpus + c) = cfg.blockBegin count k bid c :=
  congrArg FoldSeg.begin (flatSeg_eq hbid hc)

/-- Neighbours start from different positions, so no chunk is merged with the one before it. -/
theorem flatSeg_start_ne (cfg : FoldConfig) (count n : ℕ) :
    (cfg.flatSeg count (n + 1)).start ≠ (cfg.flatSeg count n).start := by
  have hlt := cfg.delta_lt
  unfold flatSeg kGpus
  simp only
  omega

theorem channelBlocks_full (hfull : p.segs.length = kS602MaxSegs) (gridOffset rcs bid : ℕ)
    (cs : List ℕ) : cfg.channelBlocks count gridOffset rcs bid cs p = p := by
  induction cs with
  | nil => rfl
  | cons c cs ih =>
    unfold channelBlocks
    simp only [hfull, lt_irrefl, dif_neg, not_false_eq_true, ih, ite_self]

theorem iteration_full (hfull : p.segs.length = kS602MaxSegs) (gridOffset rcs : ℕ) :
    cfg.iteration count gridOffset rcs p = p := by
  unfold iteration
  generalize List.range cfg.nchannels = bids
  induction bids with
  | nil => rfl
  | cons bid bids ih => rw [List.foldl_cons, channelBlocks_full hfull, ih]

/-- A full table stays as it is, however long the loop goes on. -/
theorem buildLoop_full (hfull : p.segs.length = kS602MaxSegs) (fuel gridOffset : ℕ)
    (h : cfg.buildLoop count fuel gridOffset p = some q) : q = p := by
  induction fuel generalizing gridOffset with
  | zero => cases h
  | succ fuel ih =>
    unfold buildLoop at h
    split_ifs at h with hend
    · exact (Option.some.inj h).symm
    · simp only [iteration_full hfull] at h
      exact ih _ h

theorem blockBegin_le (hbid : bid < cfg.nchannels) (hc : c < kGpus) :
    cfg.blockBegin count k bid c ≤ cfg.gridOffset count k + cfg.loop * maxChunk := by
  have hlt : bid * kGpus + c ≤ cfg.loop := by
    calc bid * kGpus + c ≤ (bid + 1) * kGpus := by
          rw [Nat.succ_mul]
          omega
      _ ≤ cfg.loop := Nat.mul_le_mul_right _ hbid
  exact Nat.add_le_add_left (Nat.mul_le_mul hlt rcs_le) _

/-- The next chunk has a segment of its own as long as there is room. -/
theorem endsWith_table (hbid : bid < cfg.nchannels) (hc : c < kGpus)
    (hn : k * cfg.loop + bid * kGpus + c < room)
    (hp : p.segs = cfg.tableOf count room (k * cfg.loop + bid * kGpus + c)) :
    p.endsWith ((c + cfg.delta) % 8) (bid % cfg.nrings) = false := by
  have hseg : cfg.flatSeg count (k * cfg.loop + bid * kGpus + c) = _ := flatSeg_eq hbid hc
  unfold FoldPlan.endsWith
  rw [hp]
  revert hn hseg
  generalize k * cfg.loop + bid * kGpus + c = n
  intro hn hseg
  cases n with
  | zero =>
    unfold tableOf
    rw [Nat.zero_min]
    rfl
  | succ n =>
    have hne := cfg.flatSeg_start_ne count n
    rw [hseg] at hne
    rw [tableOf_succ (Nat.lt_of_succ_lt hn), List.getLast?_concat, Option.any_some]
    simp only [Ne.symm hne, false_and, decide_false]

/-- The chunks of a channel from `c` on: each has its segment, until the table is full. -/
theorem channelBlocks_table (hroom : cfg.Room count room) (hcount : count < 2 ^ 64)
    (hk : cfg.gridOffset count k < count) (hbid : bid < cfg.nchannels) (m : ℕ) :
    ∀ c p, c + m = kGpus →
      p.segs = cfg.tableOf count room (k * cfg.loop + bid * kGpus + c) →
      (cfg.channelBlocks count (cfg.gridOffset count k) (cfg.chunkSize count k) bid
        (List.range' c m) p).segs = cfg.tableOf count room
          (k * cfg.loop + bid * kGpus + kGpus) := by
  induction m with
  | zero =>
    rintro c p rfl hp
    exact hp
  | succ m ih =>
    intro c p hcm hp
    have hc : c < kGpus := by omega
    have hlast : k * cfg.loop + bid * kGpus + c ≤ k * cfg.loop + bid * kGpus + kGpus := by omega
    have hlen := congrArg List.length hp
    rw [length_tableOf] at hlen
    have hbegin := hroom.lt_iff (k * cfg.loop + bid * kGpus + c)
    rw [flatBegin_eq hbid hc] at hbegin
    by_cases hin : k * cfg.loop + bid * kGpus + c < room
    · -- the chunk holds an element, and the table has room for it
      have hsegs : p.segs.length < kS602MaxSegs := by
        rw [hlen, Nat.min_eq_left hin.le]
        exact hin.trans_le hroom.le
      have hmerge := endsWith_table hbid hc hin hp
      rw [List.range'_succ]
      unfold channelBlocks
      rw [show cfg.gridOffset count k + (bid * kGpus + c) * cfg.chunkSize count k =
        cfg.blockBegin count k bid c from rfl, Nat.mod_eq_of_lt ((hbegin.1 hin).1.trans hcount)]
      simp only [not_le.2 (hbegin.1 hin).1, if_false, hmerge, Bool.false_eq_true, dif_pos hsegs]
      apply ih (c + 1) _ (by omega)
      show p.segs ++ [_] = _
      rw [hp, ← flatSeg_eq hbid hc, ← tableOf_succ hin]
      rfl
    · rw [tableOf_beyond (hlast.trans' (not_lt.1 hin)) (not_lt.1 hin), ← hp]
      rcases Nat.lt_or_ge room kS602MaxSegs with hless | hfull
      · -- the chunk is behind the last element
        have hend : count ≤ cfg.flatBegin count room :=
          not_lt.1 fun hlt => lt_irrefl _ ((hroom.lt_iff room).2 ⟨hlt, hless⟩)
        have hbehind : count ≤ cfg.blockBegin count k bid c := by
          rw [← flatBegin_eq hbid hc]
          exact hend.trans (cfg.flatBegin_mono count (not_lt.1 hin))
        have hfits : cfg.blockBegin count k bid c < 2 ^ 64 :=
          calc cfg.blockBegin count k bid c ≤ cfg.gridOffset count k + cfg.loop * maxChunk :=
                blockBegin_le hbid hc
            _ < count + cfg.loop * maxChunk := Nat.add_lt_add_right hk _
            _ < 2 ^ 64 := hroom.bounded hless
        rw [List.range'_succ]
        unfold channelBlocks
        rw [show cfg.gridOffset count k + (bid * kGpus + c) * cfg.chunkSize count k =
          cfg.blockBegin count k bid c from rfl, Nat.mod_eq_of_lt hfits]
        exact congrArg FoldPlan.segs (if_pos hbehind)
      · rw [channelBlocks_full]
        rw [hlen, Nat.min_eq_right (not_lt.1 hin)]
        exact le_antisymm hroom.le hfull

theorem iteration_table (hroom : cfg.Room count room) (hcount : count < 2 ^ 64)
    (hk : cfg.gridOffset count k < count) (hp : p.segs = cfg.tableOf count room (k * cfg.loop)) :
    (cfg.iteration count (cfg.gridOffset count k) (cfg.chunkSize count k) p).segs =
      cfg.tableOf count room ((k + 1) * cfg.loop) := by
  have hgen : ∀ m ≤ cfg.nchannels, ((List.range m).foldl (fun p bid =>
      cfg.channelBlocks count (cfg.gridOffset count k) (cfg.chunkSize count k) bid
        (List.range kGpus) p) p).segs = cfg.tableOf count room (k * cfg.loop + m * kGpus) := by
    intro m
    induction m with
    | zero =>
      intro _
      rw [Nat.zero_mul]
      exact hp
    | succ m ih =>
      intro hm
      rw [List.range_succ, List.foldl_append, List.foldl_cons, List.foldl_nil, List.range_eq_range',
        Nat.succ_mul, ← Nat.add_assoc]
      exact channelBlocks_table hroom hcount hk hm kGpus 0 _ (Nat.zero_add _)
        (by rw [← List.range_eq_range']; exact ih (Nat.le_of_succ_le hm))
  rw [Nat.succ_mul]
  exact hgen cfg.nchannels le_rfl

theorem gridOffset_lt (cfg : FoldConfig) (hcount : 0 < count) (hk : k ≤ cfg.fullIterations count) :
    cfg.gridOffset count k < count := by
  rw [gridOffset_eq hcount hk]
  exact (Nat.mul_le_mul_right _ hk).trans_lt (cfg.fullIterations_spec hcount).1

/-- One turn of the loop, at the begin of an iteration. -/
theorem buildLoop_succ (hk : cfg.gridOffset count k < count)
    (hsum : count + cfg.loop * cfg.minChunkOf count - 1 < 2 ^ 64) (fuel : ℕ) (p : FoldPlan) :
    cfg.buildLoop count (fuel + 1) (cfg.gridOffset count k) p =
      cfg.buildLoop count fuel (cfg.gridOffset count (k + 1) % 2 ^ 64)
        (cfg.iteration count (cfg.gridOffset count k) (cfg.chunkSize count k) p) := by
  have hsize : cfg.rcs64 count (count - cfg.gridOffset count k) = cfg.chunkSize count k :=
    rcs64_eq (by omega)
  conv_lhs => unfold buildLoop
  rw [if_neg (not_le.2 hk)]
  simp only [hsize]
  rfl

theorem gridOffset_end (hcount : 0 < count) :
    count ≤ cfg.gridOffset count (cfg.fullIterations count + 1) := by
  obtain ⟨-, hle, -⟩ := cfg.fullIterations_spec hcount
  have hcover : cfg.lastElements count ≤ cfg.loop * cfg.rcs count (cfg.lastElements count) :=
    rcs_last hle
  rw [gridOffset, gridOffset_last hcount, gridOffset_eq hcount le_rfl]
  exact (Nat.sub_le_iff_le_add'.1 le_rfl).trans (Nat.add_le_add_left hcover _)

/-- Behind the last iteration the table has all it has room for. -/
theorem room_le (hroom : cfg.Room count room) (hcount : 0 < count) :
    room ≤ (cfg.fullIterations count + 1) * cfg.loop := by
  by_contra hmore
  have hlt := ((hroom.lt_iff _).1 (not_le.1 hmore)).1
  have hbegin : cfg.flatBegin count ((cfg.fullIterations count + 1) * cfg.loop) =
      cfg.gridOffset count (cfg.fullIterations count + 1) := by
    unfold flatBegin
    rw [Nat.mul_div_cancel _ cfg.loop_pos, Nat.mul_mod_left, Nat.zero_mul, Nat.add_zero]
  rw [hbegin] at hlt
  exact absurd hlt (not_lt.2 (gridOffset_end hcount))

theorem gridOffset_succ_le (k : ℕ) :
    cfg.gridOffset count (k + 1) ≤ cfg.gridOffset count k + cfg.loop * maxChunk :=
  Nat.add_le_add_left (Nat.mul_le_mul_left _ rcs_le) _

/-- The last offset fits 64 bits while there is room. -/
theorem gridOffset_fits (hcount : 0 < count) (h : count + cfg.loop * maxChunk < 2 ^ 64) :
    cfg.gridOffset count (cfg.fullIterations count + 1) < 2 ^ 64 :=
  calc cfg.gridOffset count (cfg.fullIterations count + 1)
      ≤ cfg.gridOffset count (cfg.fullIterations count) + cfg.loop * maxChunk :=
        gridOffset_succ_le _
    _ < count + cfg.loop * maxChunk := Nat.add_lt_add_right (cfg.gridOffset_lt hcount le_rfl) _
    _ < 2 ^ 64 := h

/-- From any iteration on the loop completes the table, if it ends. -/
theorem buildLoop_table (hroom : cfg.Room count room) (hcount : 0 < count) (hlt : count < 2 ^ 64)
    (hsum : count + cfg.loop * cfg.minChunkOf count - 1 < 2 ^ 64) (d : ℕ) :
    ∀ k p fuel, k + d = cfg.fullIterations count → p.segs = cfg.tableOf count room (k * cfg.loop) →
      cfg.buildLoop count fuel (cfg.gridOffset count k) p = some q →
        q.segs = cfg.tableOf count room room := by
  induction d with
  | zero =>
    rintro k p fuel rfl hp h
    have hk := cfg.gridOffset_lt hcount (le_refl _)
    cases fuel with
    | zero => cases h
    | succ fuel =>
      rw [buildLoop_succ hk hsum] at h
      have htable := iteration_table hroom hlt hk hp
      rw [tableOf_beyond (room_le hroom hcount) le_rfl] at htable
      rcases Nat.lt_or_ge room kS602MaxSegs with hless | hfull
      · rw [Nat.mod_eq_of_lt (gridOffset_fits hcount (hroom.bounded hless))] at h
        cases fuel with
        | zero => cases h
        | succ fuel =>
          unfold buildLoop at h
          rw [if_pos (gridOffset_end hcount)] at h
          rw [← Option.some.inj h, htable]
      · rw [buildLoop_full (htable ▸ ?_) _ _ h, htable]
        rw [length_tableOf, Nat.min_self]
        exact le_antisymm hroom.le hfull
  | succ d ih =>
    intro k p fuel hkd hp h
    have hk : cfg.gridOffset count k < count := cfg.gridOffset_lt hcount (by omega)
    have hnext : cfg.gridOffset count (k + 1) < count := cfg.gridOffset_lt hcount (by omega)
    cases fuel with
    | zero => cases h
    | succ fuel =>
      rw [buildLoop_succ hk hsum, Nat.mod_eq_of_lt (hnext.trans hlt)] at h
      exact ih (k + 1) _ fuel (by omega) (iteration_table hroom hlt hk hp) h

/-- With numbers that fit 64 bits it does end. -/
theorem buildLoop_ends (hcount : 0 < count) (hlt : count < 2 ^ 64)
    (hfits : cfg.gridOffset count (cfg.fullIterations count + 1) < 2 ^ 64)
    (hsum : count + cfg.loop * cfg.minChunkOf count - 1 < 2 ^ 64) (d : ℕ) :
    ∀ k p, k + d = cfg.fullIterations count →
      ∃ q, cfg.buildLoop count (d + 2) (cfg.gridOffset count k) p = some q := by
  induction d with
  | zero =>
    rintro k p rfl
    rw [buildLoop_succ (cfg.gridOffset_lt hcount le_rfl) hsum, Nat.mod_eq_of_lt hfits]
    unfold buildLoop
    exact ⟨_, if_pos (gridOffset_end hcount)⟩
  | succ d ih =>
    intro k p hkd
    have hnext : cfg.gridOffset count (k + 1) < count := cfg.gridOffset_lt hcount (by omega)
    rw [buildLoop_succ (cfg.gridOffset_lt hcount (by omega)) hsum,
      Nat.mod_eq_of_lt (hnext.trans hlt)]
    exact ih (k + 1) _ (by omega)

/-- A count whose sum with a loop of chunks wraps has empty chunks: the loop does not end. -/
theorem buildLoop_wrapped (hcount : 0 < count) (hlt : count < 2 ^ 64)
    (hsum : 2 ^ 64 ≤ count + cfg.loop * cfg.minChunkOf count - 1) (fuel : ℕ) :
    ∀ p, cfg.buildLoop count fuel 0 p = none := by
  induction fuel with
  | zero => exact fun p => rfl
  | succ fuel ih =>
    intro p
    unfold buildLoop
    rw [if_neg (not_le.2 hcount)]
    simp only [Nat.sub_zero, rcs64_wrapped hlt hsum, Nat.mul_zero, Nat.add_zero, Nat.zero_mod]
    exact ih _

end Run

section Mirror
variable {cfg count} {k bid c n i : ℕ} {p : FoldPlan}

/-- The chunk of a number. -/
theorem flat_split (cfg : FoldConfig) (n : ℕ) :
    n = n / cfg.loop * cfg.loop + n % cfg.loop / kGpus * kGpus + n % kGpus ∧
      n % cfg.loop / kGpus < cfg.nchannels := by
  have hdvd : kGpus ∣ cfg.loop := Dvd.intro_left _ rfl
  have hdiv := Nat.div_add_mod' n cfg.loop
  have hdiv' := Nat.div_add_mod' (n % cfg.loop) kGpus
  rw [Nat.mod_mod_of_dvd n hdvd] at hdiv'
  exact ⟨by omega, Nat.div_lt_of_lt_mul (Nat.mul_comm _ _ ▸ Nat.mod_lt n cfg.loop_pos)⟩

/-- The search stops at the last segment that begins at an element or in front of it. -/
theorem scan_eq (f : ℕ → FoldSeg) (m : ℕ) : ∀ a, a ≤ n → n ≤ a + m →
    (∀ j ≤ n, (f j).begin ≤ i) → (n < a + m → i < (f (n + 1)).begin) →
      FoldPlan.scan (f a) ((List.range' (a + 1) m).map f) i = f n := by
  induction m with
  | zero =>
    intro a han hna _ _
    obtain rfl : a = n := by omega
    rfl
  | succ m ih =>
    intro a han hna hle hlt
    rw [List.range'_succ, List.map_cons]
    unfold FoldPlan.scan
    rcases Nat.eq_or_lt_of_le han with rfl | hless
    · exact if_neg (not_le.2 (hlt (by omega)))
    · rw [if_pos (hle (a + 1) hless)]
      exact ih (a + 1) hless (by omega) hle fun h => hlt (by omega)

theorem lookup_eq {room : ℕ} (hp : p.segs = (List.range room).map (cfg.flatSeg count))
    (hn : n < room)
    (hle : cfg.flatBegin count n ≤ i) (hlt : n + 1 < room → i < cfg.flatBegin count (n + 1)) :
    p.lookup i = some (cfg.flatSeg count n) := by
  obtain ⟨m, rfl⟩ : ∃ m, room = m + 1 := ⟨room - 1, by omega⟩
  unfold FoldPlan.lookup
  rw [hp, List.range_eq_range', List.range'_succ, List.map_cons]
  refine congrArg some (scan_eq (cfg.flatSeg count) m 0 (Nat.zero_le n) (by omega) ?_ ?_)
  · intro j hj
    exact (cfg.flatBegin_mono count hj).trans hle
  · intro h
    exact hlt (by omega)

theorem tableOf_room (room : ℕ) :
    cfg.tableOf count room room = (List.range room).map (cfg.flatSeg count) := by
  unfold tableOf
  rw [Nat.min_self]

/-- A table with all chunks is a plan of the loop. -/
theorem mirrorsLoop_of_table (hcount : 0 < count)
    (hp : p.segs = (List.range (cfg.blockCount count)).map (cfg.flatSeg count)) :
    cfg.MirrorsLoop count p where
  first := by
    have hzero : cfg.flatBegin count 0 = 0 := by
      unfold flatBegin
      rw [Nat.zero_div, Nat.zero_mod, Nat.zero_mul]
      rfl
    have hpos : 0 < cfg.blockCount count := (flatBegin_lt_iff hcount).1 (hzero.le.trans_lt hcount)
    rw [hp]
    cases hblocks : cfg.blockCount count with
    | zero => omega
    | succ m =>
      rw [List.range_succ_eq_map, List.map_cons]
      exact congrArg some hzero
  increasing := by
    rw [hp, List.pairwise_map]
    refine List.pairwise_lt_range.imp_of_mem fun {m n} hm hn hmn => ?_
    have hlt := (flatBegin_lt_iff hcount).2 (List.mem_range.1 hm)
    exact (flatBegin_lt_succ hlt).trans_le (cfg.flatBegin_mono count hmn)
  own := by
    intro k bid c hbid hc hbegin
    rw [hp, ← flatSeg_eq hbid hc]
    rw [← flatBegin_eq hbid hc] at hbegin
    exact List.mem_map_of_mem (List.mem_range.2 ((flatBegin_lt_iff hcount).1 hbegin))
  element := by
    rintro i hi k bid c ⟨hbid, hc, hge, hlt⟩
    have hquot := (flat_index (k := k) hbid hc).1
    have hnext := cfg.flatBegin_succ count (k * cfg.loop + bid * kGpus + c)
    rw [hquot, flatBegin_eq hbid hc] at hnext
    rw [← flatBegin_eq hbid hc] at hge
    refine ⟨cfg.flatSeg count (k * cfg.loop + bid * kGpus + c), ?_, ?_, ?_⟩
    · exact lookup_eq hp ((flatBegin_lt_iff hcount).1 (hge.trans_lt hi)) hge
        fun _ => hlt.trans_le hnext.ge
    · rw [flatSeg_eq hbid hc]
    · rw [flatSeg_eq hbid hc]

/-- A table that ends in front of a chunk folds its elements as those of the chunk before. -/
theorem not_mirrorsLoop (hcount : 0 < count) {room : ℕ} (hroom : room + 1 < cfg.blockCount count)
    (hp : p.segs = (List.range (room + 1)).map (cfg.flatSeg count)) :
    ¬ cfg.MirrorsLoop count p := by
  intro hmirror
  have hlt := (flatBegin_lt_iff hcount).2 hroom
  obtain ⟨hsplit, hbid⟩ := cfg.flat_split (room + 1)
  have hc : (room + 1) % kGpus < kGpus := Nat.mod_lt _ (by decide)
  have hseg : cfg.flatSeg count ((room + 1) / cfg.loop * cfg.loop +
      (room + 1) % cfg.loop / kGpus * kGpus + (room + 1) % kGpus) = _ := flatSeg_eq hbid hc
  rw [← hsplit] at hseg
  have hbegin := congrArg FoldSeg.begin hseg
  have hnext := flatBegin_lt_succ hlt
  have hstep := cfg.flatBegin_succ count (room + 1)
  obtain ⟨s, hlookup, hstart, -⟩ := hmirror.element _ hlt _ _ _
    ⟨hbid, hc, hbegin.ge, hnext.trans_le (hstep.le.trans (Nat.add_le_add_right hbegin.le _))⟩
  have hfound := lookup_eq hp (Nat.lt_succ_self room) (cfg.flatBegin_mono count (Nat.le_succ room))
    fun h => absurd h (lt_irrefl _)
  rw [hlookup] at hfound
  have hne := cfg.flatSeg_start_ne count room
  rw [Option.some.inj hfound] at hstart
  rw [hseg] at hne
  exact hne hstart.symm

theorem blockCount_zero (cfg : FoldConfig) : cfg.blockCount 0 = 0 := by
  obtain ⟨hpos, -⟩ := cfg.loopChunk_bounds 0
  have hlast : cfg.lastElements 0 = 0 := Nat.zero_sub _
  have hsize : cfg.rcs 0 0 = 0 := by
    unfold rcs
    rw [Nat.zero_add, Nat.div_eq_of_lt (by omega), Nat.zero_mul, Nat.zero_min]
  have hfull : cfg.fullIterations 0 = 0 := Nat.zero_div _
  unfold blockCount
  rw [hlast, hsize, hfull, Nat.zero_mul, Nat.div_zero]

/-- The plan of no elements has one segment. -/
theorem mirrorsLoop_zero (cfg : FoldConfig) :
    ∃ p, cfg.s602BuildPlan 0 1 = some p ∧ cfg.MirrorsLoop 0 p := by
  refine ⟨cfg.finish .empty, rfl, rfl, List.pairwise_singleton _ _, ?_, ?_⟩
  · intro k bid c _ _ h
    exact absurd h (Nat.not_lt_zero _)
  · intro i hi
    exact absurd hi (Nat.not_lt_zero _)

/-- With more chunks than segments no plan is one of the loop. -/
theorem not_mirrorsLoop_of_many (hlt : count < 2 ^ 64) (hmany : kS602MaxSegs < cfg.blockCount count)
    {fuel : ℕ} (h : cfg.s602BuildPlan count fuel = some p) : ¬ cfg.MirrorsLoop count p := by
  have hcount : 0 < count := by
    by_contra hzero
    obtain rfl : count = 0 := by omega
    rw [blockCount_zero] at hmany
    exact Nat.not_lt_zero _ hmany
  obtain ⟨q, hq, rfl⟩ := Option.map_eq_some_iff.1 h
  by_cases hsum : count + cfg.loop * cfg.minChunkOf count - 1 < 2 ^ 64
  · have hroom := cfg.room hcount
    rw [Nat.min_eq_right hmany.le] at hroom
    have hsegs := buildLoop_table hroom hcount hlt hsum (cfg.fullIterations count) 0 .empty fuel
      (Nat.zero_add _) (by unfold tableOf; rw [Nat.zero_mul, Nat.zero_min]; rfl) hq
    rw [tableOf_room] at hsegs
    have hfinish : cfg.finish q = q := if_neg fun hnil => by
      rw [hnil] at hsegs
      cases hsegs
    rw [hfinish]
    exact not_mirrorsLoop hcount (show 39 + 1 < _ from hmany) hsegs
  · rw [buildLoop_wrapped hcount hlt (not_lt.1 hsum)] at hq
    cases hq

end Mirror

/-- The plan is made, and is one of the loop, exactly if the chunks fit the table. -/
theorem foldPlan_iff (cfg : FoldConfig) (count : UInt64) :
    (∃ fuel p, cfg.s602BuildPlan count.toNat fuel = some p ∧ cfg.MirrorsLoop count.toNat p) ↔
      cfg.blockCount count.toNat ≤ kS602MaxSegs := by
  have hlt : count.toNat < 2 ^ 64 := count.toNat_lt
  revert hlt
  generalize count.toNat = count
  intro hlt
  constructor
  · rintro ⟨fuel, p, hbuild, hmirror⟩
    by_contra hmany
    exact not_mirrorsLoop_of_many hlt (not_le.1 hmany) hbuild hmirror
  · intro hfits
    rcases Nat.eq_zero_or_pos count with rfl | hcount
    · exact ⟨1, cfg.mirrorsLoop_zero⟩
    have hbounded := bounded hfits
    have hsum : count + cfg.loop * cfg.minChunkOf count - 1 < 2 ^ 64 := by
      have hsmall := count_le hfits
      have hloop := (cfg.loopChunk_bounds count).2
      unfold kS602MaxSegs maxChunk at hsmall
      clear hbounded
      omega
    obtain ⟨q, hq⟩ := buildLoop_ends hcount hlt (gridOffset_fits hcount hbounded) hsum
      (cfg.fullIterations count) 0 .empty (Nat.zero_add _)
    have hroom := cfg.room hcount
    rw [Nat.min_eq_left hfits] at hroom
    have hsegs := buildLoop_table hroom hcount hlt hsum (cfg.fullIterations count) 0 .empty _
      (Nat.zero_add _) (by unfold tableOf; rw [Nat.zero_mul, Nat.zero_min]; rfl) hq
    rw [tableOf_room] at hsegs
    have hmirror := mirrorsLoop_of_table hcount hsegs
    have hfinish : cfg.finish q = q := if_neg fun hnil => by
      have hfirst := hmirror.first
      rw [hnil] at hfirst
      cases hfirst
    refine ⟨cfg.fullIterations count + 2, q, ?_, hmirror⟩
    unfold s602BuildPlan
    rw [show (0 : ℕ) = cfg.gridOffset count 0 from rfl, hq, Option.map_some, hfinish]

end FoldConfig

/-- Eight channels with chunks of at least 64 elements. -/
def manyChannels : FoldConfig :=
  ⟨8, 1, 1, 64, by decide, by decide, by decide, by decide, by decide, by decide⟩

/-- The 8192 sums of a layer's router logits have 64 chunks there. -/
theorem manyChannels_folds : ¬ ∃ fuel p, manyChannels.s602BuildPlan 8192 fuel = some p ∧
    manyChannels.MirrorsLoop 8192 p := by
  rintro ⟨fuel, p, hbuild, hmirror⟩
  exact FoldConfig.not_mirrorsLoop_of_many (by norm_num) (by decide) hbuild hmirror

end Ds4.Fold
