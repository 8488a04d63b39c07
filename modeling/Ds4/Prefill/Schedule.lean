import Ds4.Prefill.Settings
import Ds4.Parts.Tile
import Mathlib.Tactic.NormNum

/-! The chunks of a prefill: how a range of the prompt is cut, from its beginning or from where a
session resumes. -/
namespace Ds4.Prefill

open Parts (Extent tile)

/-- The largest chunk of a range: a resumed one has to fit the raw ring. -/
def chunkCap (g : Graph) (start : ℕ) : ℕ :=
  if start ≠ 0 ∧ g.rawCap < g.prefillCap then g.rawCap else g.prefillCap

/-- The largest chunk at a position: a resumed range stops at the boundaries of a cold one. -/
def localCap (g : Graph) (start pos0 : ℕ) : ℕ :=
  if start ≠ 0 ∧ pos0 % g.prefillCap ≠ 0 then
    min (g.prefillCap - pos0 % g.prefillCap) (chunkCap g start)
  else chunkCap g start

theorem chunkCap_pos (g : Graph) (start : ℕ) : 0 < chunkCap g start := by
  have hraw := Nat.lt_of_lt_of_le g.rawWindow_pos g.rawWindow_le
  have hcap := g.prefillCap_pos
  unfold chunkCap
  split_ifs <;> omega

theorem localCap_pos (g : Graph) (start pos0 : ℕ) : 0 < localCap g start pos0 := by
  have hcap := chunkCap_pos g start
  have hmod := Nat.mod_lt pos0 g.prefillCap_pos
  unfold localCap
  split_ifs <;> omega

/-- The chunks from a position to the end of the range. -/
def chunkLoop (g : Graph) (start stop pos0 : ℕ) : List Extent :=
  if pos0 < stop then
    ⟨pos0, min (stop - pos0) (localCap g start pos0)⟩ ::
      chunkLoop g start stop (pos0 + min (stop - pos0) (localCap g start pos0))
  else []
termination_by stop - pos0
decreasing_by
  have hpos := localCap_pos g start pos0
  omega

/-- `metal_graph_prefill_chunked_range`: the chunks that it processes, `none` where it refuses
the range. -/
def prefillChunkedRange (g : Graph) (promptLen start nTokens : ℕ) : Option (List Extent) :=
  if nTokens = 0 then none
  else if promptLen < start then none
  else if promptLen - start < nTokens then none
  else some (chunkLoop g start (start + nTokens) start)

/-- Where the chunks of a list end. -/
def boundaries (chunks : List Extent) : List ℕ := chunks.map fun c => c.off + c.bytes

section Cuts

theorem next_gt {size : ℕ} (hsize : 0 < size) (pos : ℕ) : pos < (pos / size + 1) * size :=
  Nat.lt_mul_of_div_lt (Nat.lt_succ_self (pos / size)) hsize

/-- The multiples of a size behind a position, up to the end of a range and with it. -/
def cuts (size stop pos : ℕ) : List ℕ :=
  if pos < stop ∧ 0 < size then
    min stop ((pos / size + 1) * size) :: cuts size stop (min stop ((pos / size + 1) * size))
  else []
termination_by stop - pos
decreasing_by
  rename_i h
  have hnext := next_gt h.2 pos
  omega

variable {size stop pos start : ℕ}

theorem cuts_of_lt (h : pos < stop ∧ 0 < size) : cuts size stop pos =
    min stop ((pos / size + 1) * size) :: cuts size stop (min stop ((pos / size + 1) * size)) := by
  conv_lhs => unfold cuts
  exact if_pos h

theorem cuts_of_ge (h : ¬ (pos < stop ∧ 0 < size)) : cuts size stop pos = [] := by
  unfold cuts
  exact if_neg h

theorem cuts_gt {x : ℕ} (hx : x ∈ cuts size stop pos) : pos < x := by
  fun_induction cuts size stop pos with
  | case1 pos h ih =>
    have hnext := next_gt h.2 pos
    rcases List.mem_cons.mp hx with rfl | hx
    · omega
    · have hlt := ih hx
      omega
  | case2 => cases hx

/-- Two positions between the same multiples have the same cuts. -/
theorem cuts_congr (hpos : pos < stop) (hstart : start < stop)
    (hsame : pos / size = start / size) : cuts size stop pos = cuts size stop start := by
  by_cases hsize : 0 < size
  · rw [cuts_of_lt ⟨hpos, hsize⟩, cuts_of_lt ⟨hstart, hsize⟩, hsame]
  · rw [cuts_of_ge (by omega), cuts_of_ge (by omega)]

/-- The cuts behind a later position are those that the position itself has. -/
theorem cuts_filter (hle : pos ≤ start) (hstart : start < stop) :
    (cuts size stop pos).filter (start < ·) = cuts size stop start := by
  fun_induction cuts size stop pos with
  | case1 pos h ih =>
    by_cases hpast : min stop ((pos / size + 1) * size) ≤ start
    · rw [List.filter_cons_of_neg (by rw [decide_eq_true_eq]; omega)]
      exact ih hpast
    · have hsame : pos / size = start / size := by
        apply le_antisymm (Nat.div_le_div_right hle)
        have hlt : start < (pos / size + 1) * size := by omega
        exact Nat.le_of_lt_succ ((Nat.div_lt_iff_lt_mul h.2).mpr hlt)
      have hlast : cuts size stop start = cuts size stop pos :=
        (cuts_congr h.1 hstart hsame).symm
      rw [hlast, cuts_of_lt h, List.filter_eq_self]
      intro x hx
      rcases List.mem_cons.mp hx with rfl | hx
      · rw [decide_eq_true_eq]
        omega
      · have hgt := cuts_gt hx
        simp only [decide_eq_true_eq]
        omega
  | case2 pos h =>
    rw [cuts_of_ge (by omega)]
    rfl

end Cuts

section Loop
variable {g : Graph} {start stop pos0 : ℕ}

theorem chunkLoop_of_lt (h : pos0 < stop) : chunkLoop g start stop pos0 =
    ⟨pos0, min (stop - pos0) (localCap g start pos0)⟩ ::
      chunkLoop g start stop (pos0 + min (stop - pos0) (localCap g start pos0)) := by
  conv_lhs => unfold chunkLoop
  exact if_pos h

theorem chunkLoop_of_ge (h : stop ≤ pos0) : chunkLoop g start stop pos0 = [] := by
  unfold chunkLoop
  exact if_neg (Nat.not_lt.mpr h)

theorem localCap_le (g : Graph) (start pos0 : ℕ) : localCap g start pos0 ≤ chunkCap g start := by
  unfold localCap
  split_ifs
  · exact Nat.min_le_right _ _
  · exact le_rfl

/-- The chunks are not empty and within the capacity. -/
theorem chunkLoop_sizes {c : Extent} (hc : c ∈ chunkLoop g start stop pos0) :
    0 < c.bytes ∧ c.bytes ≤ chunkCap g start := by
  fun_induction chunkLoop g start stop pos0 with
  | case1 pos0 h ih =>
    rcases List.mem_cons.mp hc with rfl | hc
    · have hpos := localCap_pos g start pos0
      have hle := localCap_le g start pos0
      constructor
      · show 0 < min (stop - pos0) (localCap g start pos0)
        omega
      · show min (stop - pos0) (localCap g start pos0) ≤ chunkCap g start
        omega
    · exact ih hc
  | case2 => cases hc

/-- The chunks follow one another, and make up the rest of the range. -/
theorem chunkLoop_tile (g : Graph) (start : ℕ) (hle : pos0 ≤ stop) :
    chunkLoop g start stop pos0 = tile pos0 ((chunkLoop g start stop pos0).map (·.bytes)) ∧
      ((chunkLoop g start stop pos0).map (·.bytes)).sum = stop - pos0 := by
  fun_induction chunkLoop g start stop pos0 with
  | case1 pos0 h ih =>
    obtain ⟨htile, hsum⟩ := ih (by omega)
    rw [List.map_cons, tile, ← htile, List.sum_cons, hsum]
    refine ⟨rfl, ?_⟩
    show min (stop - pos0) (localCap g start pos0) +
      (stop - (pos0 + min (stop - pos0) (localCap g start pos0))) = stop - pos0
    omega
  | case2 pos0 h => exact ⟨rfl, by simp only [List.map_nil, List.sum_nil]; omega⟩

theorem boundaries_cons (c : Extent) (chunks : List Extent) :
    boundaries (c :: chunks) = (c.off + c.bytes) :: boundaries chunks := rfl

/-- A range whose chunks may be as large as the boundaries allow is cut at them. -/
theorem chunkLoop_cuts (hcap : chunkCap g start = g.prefillCap)
    (haligned : start ≠ 0 ∨ pos0 % g.prefillCap = 0 ∨ stop ≤ pos0) :
    boundaries (chunkLoop g start stop pos0) = cuts g.prefillCap stop pos0 := by
  have hpos := g.prefillCap_pos
  fun_induction chunkLoop g start stop pos0 with
  | case1 pos0 h ih =>
    have hmod := Nat.mod_lt pos0 hpos
    have hdiv := Nat.div_add_mod' pos0 g.prefillCap
    have hlocal : localCap g start pos0 = g.prefillCap - pos0 % g.prefillCap := by
      unfold localCap
      rw [hcap]
      split_ifs with hstart
      · omega
      · have hzero : pos0 % g.prefillCap = 0 := by omega
        omega
    have hnext : pos0 + min (stop - pos0) (localCap g start pos0) =
        min stop ((pos0 / g.prefillCap + 1) * g.prefillCap) := by
      rw [hlocal, Nat.add_mul, Nat.one_mul]
      omega
    have hrest := ih (by
      rw [hnext]
      by_cases hlast : stop ≤ (pos0 / g.prefillCap + 1) * g.prefillCap
      · exact .inr (.inr (by omega))
      · rw [Nat.min_eq_right (by omega), Nat.mul_mod_left]
        exact .inr (.inl rfl))
    rw [boundaries_cons, hrest, cuts_of_lt ⟨h, hpos⟩, hnext]
  | case2 pos0 h =>
    rw [cuts_of_ge (by omega)]
    rfl

end Loop

section Resumed
variable {g : Graph} {start stop promptLen nTokens : ℕ}

/-- The boundary behind a position. -/
def nextBoundary (g : Graph) (pos : ℕ) : ℕ := (pos / g.prefillCap + 1) * g.prefillCap

/-- The ring holds as much of each block of the cold schedule as the range has in it. -/
def RingHoldsBlocks (g : Graph) (start stop : ℕ) : Prop :=
  start = 0 ∨ g.prefillCap ≤ g.rawCap ∨
    (min (nextBoundary g start) stop - start ≤ g.rawCap ∧
      (stop ≤ nextBoundary g start ∨ stop - nextBoundary g start ≤ g.rawCap))

theorem nextBoundary_gt (g : Graph) (pos : ℕ) : pos < nextBoundary g pos :=
  next_gt g.prefillCap_pos pos

theorem nextBoundary_le (g : Graph) (pos : ℕ) : nextBoundary g pos ≤ pos + g.prefillCap := by
  have hdiv := Nat.div_add_mod' pos g.prefillCap
  unfold nextBoundary
  rw [Nat.add_mul, Nat.one_mul]
  omega

theorem nextBoundary_twice (g : Graph) (pos : ℕ) :
    nextBoundary g (nextBoundary g pos) = nextBoundary g pos + g.prefillCap := by
  unfold nextBoundary
  rw [Nat.mul_div_cancel _ g.prefillCap_pos, Nat.add_mul _ 1, Nat.one_mul]

/-- Where a chunk of a resumed range ends: at the boundary of the cold schedule, unless the ring
is full before. -/
theorem chunk_end (hresumed : start ≠ 0) {pos : ℕ} (hlt : pos < stop) :
    pos + min (stop - pos) (localCap g start pos) =
      min (min stop (nextBoundary g pos)) (pos + g.rawCap) := by
  have hmod := Nat.mod_lt pos g.prefillCap_pos
  have hdiv := Nat.div_add_mod' pos g.prefillCap
  unfold localCap chunkCap nextBoundary
  rw [Nat.add_mul, Nat.one_mul]
  split_ifs <;> omega

theorem resumed_cons (hresumed : start ≠ 0) {pos : ℕ} (hlt : pos < stop) :
    boundaries (chunkLoop g start stop pos) =
      min (min stop (nextBoundary g pos)) (pos + g.rawCap) ::
        boundaries (chunkLoop g start stop
          (min (min stop (nextBoundary g pos)) (pos + g.rawCap))) := by
  rw [chunkLoop_of_lt hlt, boundaries_cons, chunk_end hresumed hlt]

theorem cuts_cons {pos : ℕ} (hlt : pos < stop) : cuts g.prefillCap stop pos =
    min stop (nextBoundary g pos) :: cuts g.prefillCap stop (min stop (nextBoundary g pos)) :=
  cuts_of_lt ⟨hlt, g.prefillCap_pos⟩

/-- A resumed range stops where the cold one does exactly if the ring holds what it has of each
block. -/
theorem resumed_cuts_iff (hresumed : start ≠ 0) (hlt : start < stop) :
    boundaries (chunkLoop g start stop start) = cuts g.prefillCap stop start ↔
      RingHoldsBlocks g start stop := by
  have hgt := nextBoundary_gt g start
  have hle := nextBoundary_le g start
  have htwice := nextBoundary_twice g start
  unfold RingHoldsBlocks
  rw [resumed_cons hresumed hlt, cuts_cons hlt]
  constructor
  · intro hsame
    obtain ⟨hhead, htail⟩ := List.cons_eq_cons.mp hsame
    by_cases hwide : g.prefillCap ≤ g.rawCap
    · exact .inr (.inl hwide)
    refine .inr (.inr ⟨by omega, ?_⟩)
    by_cases hlast : stop ≤ nextBoundary g start
    · exact .inl hlast
    · -- the second block is the last one, or is cut inside
      right
      rw [hhead, Nat.min_eq_right (by omega), resumed_cons hresumed (by omega),
        cuts_cons (by omega), htwice] at htail
      have hsecond := (List.cons_eq_cons.mp htail).1
      omega
  · intro hholds
    have hhead : min (min stop (nextBoundary g start)) (start + g.rawCap) =
        min stop (nextBoundary g start) := by
      rcases hholds with hzero | hwide | ⟨hfirst, -⟩ <;> omega
    rw [hhead]
    by_cases hwide : g.prefillCap ≤ g.rawCap
    · have hcap : chunkCap g start = g.prefillCap := if_neg (by omega)
      rw [chunkLoop_cuts hcap (.inl hresumed)]
    congr 1
    by_cases hlast : stop ≤ nextBoundary g start
    · rw [Nat.min_eq_left hlast, chunkLoop_of_ge le_rfl, cuts_of_ge (by omega)]
      rfl
    · have hnext : min stop (nextBoundary g start) = nextBoundary g start := by omega
      have hstop : min (min stop (nextBoundary g start + g.prefillCap))
          (nextBoundary g start + g.rawCap) = stop := by
        rcases hholds with hzero | hwide | ⟨-, hlast | hfits⟩ <;> omega
      have hstop' : min stop (nextBoundary g start + g.prefillCap) = stop := by
        rcases hholds with hzero | hwide | ⟨-, hlast | hfits⟩ <;> omega
      rw [hnext, resumed_cons hresumed (by omega), cuts_cons (by omega), htwice, hstop, hstop',
        chunkLoop_of_ge le_rfl, cuts_of_ge (by omega)]
      rfl

/-- The function takes the range. -/
def Accepts (promptLen start nTokens : ℕ) : Prop :=
  nTokens ≠ 0 ∧ start ≤ promptLen ∧ nTokens ≤ promptLen - start

theorem prefillChunkedRange_eq {chunks : List Extent} :
    prefillChunkedRange g promptLen start nTokens = some chunks ↔
      Accepts promptLen start nTokens ∧ chunks = chunkLoop g start (start + nTokens) start := by
  unfold prefillChunkedRange Accepts
  split_ifs with hnone hstart hlen
  · simp [hnone]
  · simp only [false_iff]
    omega
  · simp only [false_iff]
    omega
  · rw [Option.some.injEq, eq_comm]
    constructor
    · intro h
      exact ⟨⟨hnone, by omega, by omega⟩, h⟩
    · intro h
      exact h.2

/-- The chunks of a range stop where those of a prefill of the same tokens from the beginning
do. -/
def FollowsCold (g : Graph) (promptLen start nTokens : ℕ) : Prop :=
  ∀ chunks cold, prefillChunkedRange g promptLen start nTokens = some chunks →
    prefillChunkedRange g promptLen 0 (start + nTokens) = some cold →
    boundaries chunks = (boundaries cold).filter (start < ·)

theorem cold_cuts (g : Graph) (stop : ℕ) :
    boundaries (chunkLoop g 0 stop 0) = cuts g.prefillCap stop 0 :=
  chunkLoop_cuts (if_neg (by omega)) (.inr (.inl (Nat.zero_mod _)))

theorem followsCold_iff (g : Graph) (promptLen start nTokens : ℕ) :
    FollowsCold g promptLen start nTokens ↔
      (Accepts promptLen start nTokens → RingHoldsBlocks g start (start + nTokens)) := by
  have hiff : Accepts promptLen start nTokens →
      (boundaries (chunkLoop g start (start + nTokens) start) =
        (boundaries (chunkLoop g 0 (0 + (start + nTokens)) 0)).filter (start < ·) ↔
        RingHoldsBlocks g start (start + nTokens)) := by
    intro haccepts
    have hsome := Nat.pos_of_ne_zero haccepts.1
    rw [Nat.zero_add, cold_cuts, cuts_filter (Nat.zero_le _) (by omega)]
    by_cases hzero : start = 0
    · rw [hzero]
      constructor
      · intro _
        exact .inl rfl
      · intro _
        exact cold_cuts g (0 + nTokens)
    · exact resumed_cuts_iff hzero (by omega)
  constructor
  · intro hfollows haccepts
    have hcold : Accepts promptLen 0 (start + nTokens) := by
      obtain ⟨hsome, hstart, hlen⟩ := haccepts
      exact ⟨by omega, by omega, by omega⟩
    exact (hiff haccepts).mp (hfollows _ _ (prefillChunkedRange_eq.mpr ⟨haccepts, rfl⟩)
      (prefillChunkedRange_eq.mpr ⟨hcold, rfl⟩))
  · intro hholds chunks cold hchunks hcold
    obtain ⟨haccepts, rfl⟩ := prefillChunkedRange_eq.mp hchunks
    obtain ⟨-, rfl⟩ := prefillChunkedRange_eq.mp hcold
    exact (hiff haccepts).mpr (hholds haccepts)

/-- The chunks of a prefill are within the capacity, not empty, and tile the range; and they
follow the cold schedule exactly if the range begins the prompt, the ring holds a whole chunk, or
it holds what the range has in the first two blocks and there is no third. -/
theorem prefill_schedule_iff (g : Graph) (promptLen start nTokens : ℕ) :
    (∀ chunks, prefillChunkedRange g promptLen start nTokens = some chunks →
      (∀ c ∈ chunks, 0 < c.bytes ∧ c.bytes ≤ chunkCap g start) ∧
        chunks = tile start (chunks.map (·.bytes)) ∧ (chunks.map (·.bytes)).sum = nTokens) ∧
    (FollowsCold g promptLen start nTokens ↔
      (Accepts promptLen start nTokens → RingHoldsBlocks g start (start + nTokens))) := by
  constructor
  · intro chunks hchunks
    obtain ⟨-, rfl⟩ := prefillChunkedRange_eq.mp hchunks
    obtain ⟨htile, hsum⟩ :=
      chunkLoop_tile g start (Nat.le_add_right start nTokens)
    refine ⟨fun c hc => chunkLoop_sizes hc, htile, ?_⟩
    rw [hsum]
    omega
  · exact followsCold_iff g promptLen start nTokens

/-- A session of 32768 positions whose prefill takes chunks of 10000 tokens: its ring has 8192
rows. -/
def wideChunks : Graph := sessionGraph (.value 10000) .unset 32768

/-- It resumes behind the first token with a chunk that the ring cuts at 8193. -/
theorem wideChunks_cut : ¬ FollowsCold wideChunks 20000 1 19999 := by
  rw [followsCold_iff]
  intro hholds
  have haccepts : Accepts 20000 1 19999 := by
    refine ⟨?_, ?_, ?_⟩ <;> norm_num
  have hcap : wideChunks.prefillCap = 10000 := by decide
  have hraw : wideChunks.rawCap = 8192 := by decide
  rcases hholds haccepts with hzero | hwide | ⟨hfirst, -⟩
  · omega
  · omega
  · unfold nextBoundary at hfirst
    rw [hcap, hraw] at hfirst
    omega

end Resumed

end Ds4.Prefill
