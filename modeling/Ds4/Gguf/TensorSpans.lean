import Ds4.Gguf.Directory
import Ds4.Parts.Tile

/-! The ranges of the model file that are cached on the accelerator at startup: the tensors'
spans in order, merged over small gaps and cut at the configured maximum. -/
namespace Ds4.Gguf

open Parts (Extent)

structure TensorSpan where
  off : ℕ
  stop : ℕ
  deriving DecidableEq

/-- The largest range that is cached at once. -/
structure SpanLimit where
  bytes : ℕ
  pos : 0 < bytes

/-- The megabytes that the environment asks for; `env` is the number that it gives. -/
def preloadSpanMb (env : Option ℕ) : ℕ :=
  if 0 < env.getD 0 then min (max (env.getD 0) 64) 4096 else 1024

theorem preloadSpanMb_pos (env : Option ℕ) : 0 < preloadSpanMb env * 1048576 := by
  unfold preloadSpanMb
  split_ifs <;> omega

/-- `accelerator_cuda_preload_span_bytes`. -/
def preloadSpanBytes (env : Option ℕ) : SpanLimit :=
  ⟨preloadSpanMb env * 1048576, preloadSpanMb_pos env⟩

def payload (t : Tensor) : Extent := ⟨t.absOffset, t.bytes⟩

/-- The spans of the tensors that have bytes; `none` where one leaves the file. -/
def collectSpans (size : ℕ) : List Tensor → Option (List TensorSpan)
  | [] => some []
  | t :: tensors =>
    if t.bytes = 0 then collectSpans size tensors
    else if size < t.absOffset ∨ size - t.absOffset < t.bytes then none
    else (collectSpans size tensors).map (⟨t.absOffset, t.absOffset + t.bytes⟩ :: ·)

/-- `accelerator_tensor_span_cmp`: whether `a` may stand before `b`. -/
def spanLe (a b : TensorSpan) : Bool :=
  decide (a.off < b.off) || (decide (a.off = b.off) && decide (a.stop ≤ b.stop))

/-- The spans that are merged into the range from `off` to `stop`: its end, and the spans behind
it. -/
def gather (limit : SpanLimit) (off stop : ℕ) : List TensorSpan → ℕ × List TensorSpan
  | [] => (stop, [])
  | s :: rest =>
    if s.off ≤ (stop + 65536) % 2 ^ 64 ∧ s.stop - off ≤ limit.bytes then
      gather limit off (max stop s.stop) rest
    else (stop, s :: rest)

theorem gather_length (limit : SpanLimit) (off stop : ℕ) (spans : List TensorSpan) :
    (gather limit off stop spans).2.length ≤ spans.length := by
  induction spans generalizing stop with
  | nil => exact le_rfl
  | cons s rest ih =>
    unfold gather
    split_ifs
    · exact (ih _).trans (Nat.le_succ _)
    · exact Nat.le_refl _

def mergeSpans (limit : SpanLimit) : List TensorSpan → List TensorSpan
  | [] => []
  | s :: rest =>
    ⟨s.off, (gather limit s.off s.stop rest).1⟩ ::
      mergeSpans limit (gather limit s.off s.stop rest).2
termination_by spans => spans.length
decreasing_by exact Nat.lt_succ_of_le (gather_length _ _ _ _)

/-- A merged range, cut at the limit. -/
def cutRange (limit : SpanLimit) (off stop : ℕ) : List Extent :=
  if off < stop then
    let chunkEnd := if limit.bytes < stop - off then off + limit.bytes else stop
    ⟨off, chunkEnd - off⟩ :: cutRange limit chunkEnd stop
  else []
termination_by stop - off
decreasing_by
  have hpos := limit.pos
  split_ifs <;> omega

structure Cached where
  ranges : List Extent
  bytes : ℕ

/-- The ranges are cached one by one; `accept` is the accelerator's answer to the next range
behind those it has. -/
def cacheRanges (accept : List Extent → Extent → Bool) (c : Cached) :
    List Extent → Option Cached
  | [] => some c
  | e :: rest =>
    if accept c.ranges e then
      cacheRanges accept ⟨c.ranges ++ [e], (c.bytes + e.bytes) % 2 ^ 64⟩ rest
    else none

def spanRanges (limit : SpanLimit) (spans : List TensorSpan) : List Extent :=
  (mergeSpans limit (spans.mergeSort spanLe)).flatMap fun s => cutRange limit s.off s.stop

/-- `accelerator_cache_model_tensor_spans`. -/
def cacheModelTensorSpans (m : Model) (size : ℕ) (env : Option ℕ)
    (accept : List Extent → Extent → Bool) : Option Cached :=
  (collectSpans size m.tensors).bind fun spans =>
    cacheRanges accept ⟨[], 0⟩ (spanRanges (preloadSpanBytes env) spans)

section Merge
variable {limit : SpanLimit} {off stop : ℕ} {spans : List TensorSpan} {s : TensorSpan}

/-- What a merge takes: a first part of the spans, each of which ends inside the range and not
beyond the limit. -/
theorem gather_spec (limit : SpanLimit) (off stop : ℕ) (spans : List TensorSpan) :
    ∃ taken, spans = taken ++ (gather limit off stop spans).2 ∧
      stop ≤ (gather limit off stop spans).1 ∧
      (∀ s ∈ taken, s.stop ≤ (gather limit off stop spans).1 ∧ s.stop - off ≤ limit.bytes) ∧
      (stop - off ≤ limit.bytes → (gather limit off stop spans).1 - off ≤ limit.bytes) := by
  induction spans generalizing stop with
  | nil => exact ⟨[], rfl, le_rfl, by simp, id⟩
  | cons s rest ih =>
    unfold gather
    split_ifs with hmerge
    · obtain ⟨taken, heq, hle, hstops, hwithin⟩ := ih (max stop s.stop)
      refine ⟨s :: taken, ?_, (le_max_left _ _).trans hle, ?_, ?_⟩
      · rw [List.cons_append, ← heq]
      · intro u hu
        rcases List.mem_cons.mp hu with rfl | hu
        · exact ⟨(le_max_right _ _).trans hle, hmerge.2⟩
        · exact hstops u hu
      · intro hfits
        apply hwithin
        have hstop := hmerge.2
        omega
    · exact ⟨[], rfl, le_rfl, by simp, id⟩

/-- Where a span ends up: in a range that begins with a span not behind it, and is within the
limit unless that span alone is beyond it. -/
theorem mergeSpans_holds (limit : SpanLimit)
    (hsorted : spans.Pairwise fun a b => a.off ≤ b.off) (hs : s ∈ spans) :
    ∃ g ∈ mergeSpans limit spans, g.off ≤ s.off ∧ s.stop ≤ g.stop ∧
      (g.stop - g.off ≤ limit.bytes ∨ ∃ u ∈ spans, u.off = g.off ∧
        limit.bytes < u.stop - u.off ∧ (s = u ∨ s.stop - u.off ≤ limit.bytes)) := by
  fun_induction mergeSpans limit spans with
  | case1 => cases hs
  | case2 u rest ih =>
    obtain ⟨taken, heq, hle, hstops, hwithin⟩ := gather_spec limit u.off u.stop rest
    obtain ⟨hfirst, hrest⟩ := List.pairwise_cons.mp hsorted
    have hgroup : ∀ s ∈ u :: taken, u.off ≤ s.off ∧ s.stop ≤ (gather limit u.off u.stop rest).1 ∧
        (s = u ∨ s.stop - u.off ≤ limit.bytes) := by
      intro s hs
      rcases List.mem_cons.mp hs with rfl | hs
      · exact ⟨le_rfl, hle, .inl rfl⟩
      · have hmem : s ∈ rest := heq ▸ List.mem_append_left _ hs
        exact ⟨hfirst s hmem, (hstops s hs).1, .inr (hstops s hs).2⟩
    have hsplit : s ∈ u :: taken ∨ s ∈ (gather limit u.off u.stop rest).2 := by
      rcases List.mem_cons.mp hs with rfl | hs
      · exact .inl List.mem_cons_self
      · rw [heq] at hs
        rcases List.mem_append.mp hs with hs | hs
        · exact .inl (List.mem_cons_of_mem _ hs)
        · exact .inr hs
    rcases hsplit with hs | hs
    · obtain ⟨hoff, hstop, hown⟩ := hgroup s hs
      refine ⟨_, List.mem_cons_self, hoff, hstop, ?_⟩
      by_cases hfits : u.stop - u.off ≤ limit.bytes
      · exact .inl (hwithin hfits)
      · exact .inr ⟨u, List.mem_cons_self, rfl, by omega, hown⟩
    · have hbehind : (gather limit u.off u.stop rest).2.Pairwise fun a b => a.off ≤ b.off := by
        rw [heq] at hrest
        exact (List.pairwise_append.mp hrest).2.1
      obtain ⟨g, hg, hoff, hstop, hfits | ⟨v, hv, hlong⟩⟩ := ih hbehind hs
      · exact ⟨g, List.mem_cons_of_mem _ hg, hoff, hstop, .inl hfits⟩
      · have hmem : v ∈ rest := heq ▸ List.mem_append_right _ hv
        exact ⟨g, List.mem_cons_of_mem _ hg, hoff, hstop,
          .inr ⟨v, List.mem_cons_of_mem _ hmem, hlong⟩⟩

theorem cutRange_le {e : Extent} (he : e ∈ cutRange limit off stop) : e.bytes ≤ limit.bytes := by
  fun_induction cutRange limit off stop with
  | case1 off hlt chunkEnd ih =>
    rcases List.mem_cons.mp he with rfl | he
    · show chunkEnd - off ≤ limit.bytes
      simp only [chunkEnd]
      split_ifs <;> omega
    · exact ih he
  | case2 => cases he

theorem cutRange_covers (limit : SpanLimit) {x : ℕ} (hlow : off ≤ x) (hhigh : x < stop) :
    ∃ e ∈ cutRange limit off stop, e.Has x := by
  fun_induction cutRange limit off stop with
  | case1 off hlt chunkEnd ih =>
    have hpos := limit.pos
    by_cases hx : x < chunkEnd
    · refine ⟨_, List.mem_cons_self, hlow, ?_⟩
      show x < off + (chunkEnd - off)
      omega
    · obtain ⟨e, he, hhas⟩ := ih (by omega)
      exact ⟨e, List.mem_cons_of_mem _ he, hhas⟩
  | case2 off hle => omega

/-- A range within the limit is not cut. -/
theorem cutRange_whole (hlt : off < stop) (hfits : stop - off ≤ limit.bytes) :
    ⟨off, stop - off⟩ ∈ cutRange limit off stop := by
  unfold cutRange
  rw [if_pos hlt, if_neg (by omega)]
  exact List.mem_cons_self

end Merge

section Directory
variable {limit : SpanLimit} {size : ℕ} {tensors : List Tensor} {spans : List TensorSpan}
  {t : Tensor} {e : Extent}

theorem collectSpans_has (h : collectSpans size tensors = some spans) :
    (∀ t ∈ tensors, t.bytes ≠ 0 → ⟨t.absOffset, t.absOffset + t.bytes⟩ ∈ spans) ∧
      ∀ s ∈ spans, ∃ t ∈ tensors, s = ⟨t.absOffset, t.absOffset + t.bytes⟩ := by
  induction tensors generalizing spans with
  | nil =>
    obtain rfl := Option.some.inj h
    exact ⟨by simp, by simp⟩
  | cons t tensors ih =>
    unfold collectSpans at h
    split_ifs at h with hempty houtside
    · obtain ⟨hhas, hfrom⟩ := ih h
      constructor
      · intro u hu hbytes
        rcases List.mem_cons.mp hu with rfl | hu
        · exact absurd hempty hbytes
        · exact hhas u hu hbytes
      · intro s hs
        obtain ⟨u, hu, rfl⟩ := hfrom s hs
        exact ⟨u, List.mem_cons_of_mem _ hu, rfl⟩
    · obtain ⟨rest, hrest, rfl⟩ := Option.map_eq_some_iff.mp h
      obtain ⟨hhas, hfrom⟩ := ih hrest
      constructor
      · intro u hu hbytes
        rcases List.mem_cons.mp hu with rfl | hu
        · exact List.mem_cons_self
        · exact List.mem_cons_of_mem _ (hhas u hu hbytes)
      · intro s hs
        rcases List.mem_cons.mp hs with rfl | hs
        · exact ⟨t, List.mem_cons_self, rfl⟩
        · obtain ⟨u, hu, rfl⟩ := hfrom s hs
          exact ⟨u, List.mem_cons_of_mem _ hu, rfl⟩

theorem collectSpans_isSome
    (hinside : ∀ t ∈ tensors, t.bytes ≠ 0 → t.absOffset + t.bytes ≤ size) :
    (collectSpans size tensors).isSome := by
  induction tensors with
  | nil => rfl
  | cons t tensors ih =>
    have hrest := ih fun u hu => hinside u (List.mem_cons_of_mem _ hu)
    unfold collectSpans
    split_ifs with hempty houtside
    · exact hrest
    · have h := hinside t List.mem_cons_self hempty
      omega
    · rw [Option.isSome_map]
      exact hrest

theorem spanLe_sorted (spans : List TensorSpan) :
    (spans.mergeSort spanLe).Pairwise fun a b => a.off ≤ b.off := by
  have hsorted : (spans.mergeSort spanLe).Pairwise fun a b => spanLe a b := by
    apply List.pairwise_mergeSort
    · intro a b c hab hbc
      simp only [spanLe, Bool.or_eq_true, Bool.and_eq_true, decide_eq_true_eq] at hab hbc ⊢
      omega
    · intro a b
      simp only [spanLe, Bool.or_eq_true, Bool.and_eq_true, decide_eq_true_eq]
      omega
  apply hsorted.imp
  intro a b hab
  simp only [spanLe, Bool.or_eq_true, Bool.and_eq_true, decide_eq_true_eq] at hab
  omega

theorem spanRanges_le (he : e ∈ spanRanges limit spans) : e.bytes ≤ limit.bytes := by
  obtain ⟨g, -, he⟩ := List.mem_flatMap.mp he
  exact cutRange_le he

/-- Every byte of a span is in a range, and a short span that no long one overlaps is in one. -/
theorem spanRanges_covers {s : TensorSpan} (hs : s ∈ spans) (hsome : s.off < s.stop) :
    (∀ x, s.off ≤ x → x < s.stop → ∃ e ∈ spanRanges limit spans, e.Has x) ∧
      (s.stop - s.off ≤ limit.bytes →
        (∀ u ∈ spans, limit.bytes < u.stop - u.off → s.stop ≤ u.off ∨ u.stop ≤ s.off) →
        ∃ e ∈ spanRanges limit spans, e.off ≤ s.off ∧ s.stop ≤ e.off + e.bytes) := by
  obtain ⟨g, hg, hoff, hstop, hgroup⟩ :=
    mergeSpans_holds limit (spanLe_sorted spans) (List.mem_mergeSort.mpr hs)
  have hranges : ∀ e ∈ cutRange limit g.off g.stop, e ∈ spanRanges limit spans :=
    fun e he => List.mem_flatMap.mpr ⟨g, hg, he⟩
  constructor
  · intro x hlow hhigh
    obtain ⟨e, he, hhas⟩ := cutRange_covers limit (hoff.trans hlow)
      (lt_of_lt_of_le hhigh hstop)
    exact ⟨e, hranges e he, hhas⟩
  · intro hshort hapart
    rcases hgroup with hfits | ⟨u, hu, hbegin, hlong, hown⟩
    · refine ⟨_, hranges _ (cutRange_whole (by omega) hfits), hoff, ?_⟩
      show s.stop ≤ g.off + (g.stop - g.off)
      omega
    · -- the range is beyond the limit only where its first span is, and this one is inside it
      have hover := hapart u (List.mem_mergeSort.mp hu) hlong
      rcases hown with rfl | hown <;> omega

end Directory

section Cache
variable {accept : List Extent → Extent → Bool} {c c' : Cached} {ranges : List Extent}

theorem cacheRanges_ranges (h : cacheRanges accept c ranges = some c') :
    c'.ranges = c.ranges ++ ranges := by
  induction ranges generalizing c with
  | nil =>
    obtain rfl := Option.some.inj h
    exact (List.append_nil _).symm
  | cons e rest ih =>
    unfold cacheRanges at h
    split_ifs at h
    rw [ih h, List.append_assoc]
    rfl

theorem cacheRanges_isSome (haccept : ∀ done e, accept done e = true) (c : Cached)
    (ranges : List Extent) : (cacheRanges accept c ranges).isSome := by
  induction ranges generalizing c with
  | nil => rfl
  | cons e rest ih =>
    unfold cacheRanges
    rw [if_pos (haccept _ _)]
    exact ih _

/-- The ranges that are cached cover every tensor, none is beyond the maximum, and a tensor
within it that overlaps no longer one (it is enough: none beyond the maximum) is in a single
range; and where the tensors are in the file and the accelerator takes every range, they are
cached. -/
theorem tensorSpans_cover (m : Model) (size : ℕ) (env : Option ℕ)
    (accept : List Extent → Extent → Bool) :
    (∀ c, cacheModelTensorSpans m size env accept = some c →
      (∀ t ∈ m.tensors, ∀ x, (payload t).Has x → ∃ e ∈ c.ranges, e.Has x) ∧
      (∀ e ∈ c.ranges, e.bytes ≤ (preloadSpanBytes env).bytes) ∧
      ∀ t ∈ m.tensors, t.bytes ≠ 0 → t.bytes ≤ (preloadSpanBytes env).bytes →
        (∀ u ∈ m.tensors, (preloadSpanBytes env).bytes < u.bytes →
          (payload t).Apart (payload u)) →
        ∃ e ∈ c.ranges, (payload t).Inside e) ∧
    ((∀ t ∈ m.tensors, t.bytes ≠ 0 → t.absOffset + t.bytes ≤ size) →
      (∀ done e, accept done e = true) → (cacheModelTensorSpans m size env accept).isSome) := by
  constructor
  · intro c hc
    obtain ⟨spans, hspans, hc⟩ := Option.bind_eq_some_iff.mp hc
    obtain ⟨hhas, hfrom⟩ := collectSpans_has hspans
    rw [cacheRanges_ranges hc, List.nil_append]
    refine ⟨fun t ht x hx => ?_, fun e he => spanRanges_le he, fun t ht hbytes hfits hapart => ?_⟩
    · have hx' : t.absOffset ≤ x ∧ x < t.absOffset + t.bytes := hx
      have hbytes : t.bytes ≠ 0 := by omega
      exact (spanRanges_covers (hhas t ht hbytes) (by simp only; omega)).1 x hx'.1 hx'.2
    · apply (spanRanges_covers (hhas t ht hbytes) (by simp only; omega)).2 (by simpa using hfits)
      intro u hu hlong
      obtain ⟨v, hv, rfl⟩ := hfrom u hu
      simp only at hlong ⊢
      by_contra hover
      push Not at hover
      have hlonger : (preloadSpanBytes env).bytes < v.bytes := by omega
      apply hapart v hv hlonger (max t.absOffset v.absOffset)
      · exact ⟨le_max_left _ _, by simp only [payload]; omega⟩
      · exact ⟨le_max_right _ _, by simp only [payload]; omega⟩
  · intro hinside haccept
    obtain ⟨spans, hspans⟩ := Option.isSome_iff_exists.mp (collectSpans_isSome hinside)
    unfold cacheModelTensorSpans
    rw [hspans]
    exact cacheRanges_isSome haccept _ _

end Cache

end Ds4.Gguf
