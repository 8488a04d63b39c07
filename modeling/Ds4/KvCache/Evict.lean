import Ds4.KvCache.Lookup
import Ds4.Parts.Select
import Mathlib.Data.Prod.Lex

/-! Eviction: while the disk cache is over its budget, the entry of the least score is removed. -/
namespace Ds4.KvCache
open Parts (scanLeast sortBy sortBy_perm sortBy_scan length_eraseIdx_scan)

/-- A cache directory; the sizes of its files are those of `off_t`. -/
structure Disk extends CacheDir where
  sizes : ∀ f ∈ files, f.2.length < 2 ^ 63

/-- What an entry is worth: its hits so far as they still count, and one, for each byte of the
file in tokens. `decay` is the share of the hits that is left after some seconds. -/
def entryValue {V : Type} [Field V] [LinearOrder V] (decay : ℕ → V) (now : ℕ) (e : KvEntry) : V :=
  let usedAt := if e.header.lastUsed ≠ 0 then e.header.lastUsed else e.header.createdAt
  let effectiveHits : V :=
    if usedAt = 0 then 0
    else if usedAt < now then
      let hits := e.header.hits * decay (now - usedAt)
      if hits < 1 / 100 then 0 else hits
    else e.header.hits
  (effectiveHits + 1) * e.header.tokens / e.fileSize

section Evict
variable {V : Type} [Zero V] [LinearOrder V] (value : KvEntry → V)

/-- `kv_entry_eviction_score`, for any value of the entries that are not protected. `⊤` is
`DBL_MAX`, which no value reaches. -/
def evictionScore (protectedSha : Option Bytes) (e : KvEntry) : WithTop V :=
  if e.fileSize = 0 then 0
  else if protectedSha = some e.sha then ⊤
  else value e

/-- Whether a victim is dropped for another entry. -/
def betterVictim (protectedSha : Option Bytes) (e victim : KvEntry) : Bool :=
  evictionScore value protectedSha e < evictionScore value protectedSha victim ||
    (evictionScore value protectedSha e = evictionScore value protectedSha victim &&
      e.header.lastUsed < victim.header.lastUsed)

/-- The protected file stays protected only if it fits the budget by itself. -/
def effectiveProtected (kc : KvDiskCache) (es : List KvEntry) (protectedSha : Option Bytes) :
    Option Bytes :=
  match protectedSha with
  | none => none
  | some sha =>
      let protectedSize := ((es.find? fun e => e.sha = sha).map KvEntry.fileSize).getD 0
      if kc.budgetBytes < protectedSize then none else some sha

/-- The total behind a removal. -/
def lowered (total size : ℕ) : ℕ := if size ≤ total then total - size else 0

/-- The loop of `kv_cache_evict`; `unlinks` says which files can be removed. -/
def evictLoop (unlinks : Bytes → Bool) (budget : ℕ) (protectedSha : Option Bytes) :
    List KvEntry → ℕ → CacheDir → CacheDir
  | [], _, dir => dir
  | e :: es, total, dir =>
      if total ≤ budget then dir
      else
        let victim := scanLeast (betterVictim value protectedSha) (0, e) 1 es
        let rest := (e :: es).eraseIdx victim.1
        if unlinks victim.2.path then
          evictLoop unlinks budget protectedSha rest (lowered total victim.2.fileSize)
            (dir.unlink victim.2.path)
        else evictLoop unlinks budget protectedSha rest 0 dir
termination_by es => es.length
decreasing_by
  all_goals exact length_eraseIdx_scan _ _ _

/-- The sizes of some entries. -/
def sizeOf (es : List KvEntry) : ℕ := (es.map KvEntry.fileSize).sum

/-- `kv_cache_evict`: what the directory is behind it. The total is a 64-bit number. -/
def kvCacheEvict (unlinks : Bytes → Bool) (kc : KvDiskCache) (protectedSha : Option Bytes)
    (dir : CacheDir) : CacheDir :=
  if kc.enabled = false ∨ kc.budgetBytes = 0 then dir
  else
    let es := refresh dir
    evictLoop value unlinks kc.budgetBytes (effectiveProtected kc es protectedSha) es
      (sizeOf es % 2 ^ 64) dir

/-- The order in which the loop takes the entries. -/
def evictionOrder (protectedSha : Option Bytes) (es : List KvEntry) : List KvEntry :=
  sortBy (fun e => toLex (evictionScore value protectedSha e, e.header.lastUsed)) es

theorem betterVictim_iff (protectedSha : Option Bytes) (e victim : KvEntry) :
    betterVictim value protectedSha e victim = true ↔
      toLex (evictionScore value protectedSha e, e.header.lastUsed) <
        toLex (evictionScore value protectedSha victim, victim.header.lastUsed) := by
  unfold betterVictim
  rw [Prod.Lex.toLex_lt_toLex, Bool.or_eq_true, Bool.and_eq_true]
  simp only [decide_eq_true_iff]

end Evict

section Removals
variable (unlinks : Bytes → Bool) (budget : ℕ)

/-- What is removed of the entries in their order: until the rest fits, or one cannot be. -/
def removals : List KvEntry → ℕ → List KvEntry
  | [], _ => []
  | e :: es, total =>
      if total ≤ budget then []
      else if unlinks e.path then e :: removals es (total - e.fileSize)
      else []

/-- The files of some entries are removed. -/
def unlinkAll (dir : CacheDir) (es : List KvEntry) : CacheDir :=
  es.foldl (fun dir e => dir.unlink e.path) dir

variable {unlinks budget} {es ks : List KvEntry} {e : KvEntry} {total : ℕ}

theorem removals_fits (h : total ≤ budget) : removals unlinks budget es total = [] := by
  cases es with
  | nil => rfl
  | cons e es => exact if_pos h

theorem removals_cons (h : budget < total) : removals unlinks budget (e :: es) total =
    if unlinks e.path then e :: removals unlinks budget es (total - e.fileSize) else [] :=
  if_neg (not_le.2 h)

theorem sizeOf_cons (e : KvEntry) (es : List KvEntry) : sizeOf (e :: es) = e.fileSize + sizeOf es :=
  List.sum_cons

theorem removals_prefix (unlinks : Bytes → Bool) (budget : ℕ) (es : List KvEntry) (total : ℕ) :
    removals unlinks budget es total <+: es := by
  induction es generalizing total with
  | nil => exact List.prefix_refl _
  | cons e es ih =>
    unfold removals
    split_ifs
    · exact List.nil_prefix
    · exact (List.prefix_cons_inj e).2 (ih _)
    · exact List.nil_prefix

/-- An entry is removed only where it and those behind it are more than the budget. -/
theorem over_of_removed (ht : total ≤ sizeOf es) (he : e ∈ removals unlinks budget es total) :
    ∃ pre post, es = pre ++ e :: post ∧ budget < sizeOf (e :: post) := by
  induction es generalizing total with
  | nil => cases he
  | cons x es ih =>
    rw [sizeOf_cons] at ht
    by_cases hfits : total ≤ budget
    · rw [removals_fits hfits] at he
      cases he
    · rw [removals_cons (not_le.1 hfits)] at he
      split_ifs at he
      · rcases List.mem_cons.1 he with rfl | he
        · refine ⟨[], es, rfl, ?_⟩
          rw [sizeOf_cons]
          omega
        · obtain ⟨pre, post, rfl, hover⟩ := ih (by omega) he
          exact ⟨x :: pre, post, rfl, hover⟩
      · cases he

/-- Where all files can be removed, each entry is that is over the budget with those behind it. -/
theorem removed_of_over (hall : ∀ x, unlinks x = true) {pre post : List KvEntry}
    (hover : budget < sizeOf (e :: post)) :
    e ∈ removals unlinks budget (pre ++ e :: post) (sizeOf (pre ++ e :: post)) := by
  induction pre with
  | nil =>
    rw [List.nil_append, removals_cons hover, if_pos (hall _)]
    exact List.mem_cons_self
  | cons x pre ih =>
    have hle : sizeOf (e :: post) ≤ sizeOf (pre ++ e :: post) := by
      unfold sizeOf
      rw [List.map_append, List.sum_append]
      exact Nat.le_add_left _ _
    rw [List.cons_append, sizeOf_cons, removals_cons (by omega), if_pos (hall _),
      Nat.add_sub_cancel_left]
    exact List.mem_cons_of_mem x ih

/-- Where the total is that of the entries, the rest fits the budget. -/
theorem rest_fits (hall : ∀ x ∈ es, unlinks x.path = true)
    (hks : es = removals unlinks budget es (sizeOf es) ++ ks) : sizeOf ks ≤ budget := by
  induction es with
  | nil =>
    obtain rfl := (List.append_eq_nil_iff.1 hks.symm).2
    exact Nat.zero_le _
  | cons e es ih =>
    by_cases hfits : sizeOf (e :: es) ≤ budget
    · rw [removals_fits hfits, List.nil_append] at hks
      exact hks ▸ hfits
    · rw [removals_cons (not_le.1 hfits), if_pos (hall e List.mem_cons_self), sizeOf_cons,
        Nat.add_sub_cancel_left, List.cons_append] at hks
      exact ih (fun x hx => hall x (List.mem_cons_of_mem e hx)) (List.cons.inj hks).2

/-- A total that has lost a whole turn of 64 bits stops the loop too early. -/
theorem rest_over (hsizes : ∀ x ∈ es, x.fileSize < 2 ^ 63) (hbudget : budget < 2 ^ 64)
    (hlost : total + 2 ^ 64 ≤ sizeOf es)
    (hks : es = removals unlinks budget es total ++ ks) : budget < sizeOf ks := by
  induction es generalizing total with
  | nil =>
    have hzero : sizeOf [] = 0 := rfl
    omega
  | cons e es ih =>
    by_cases hfits : total ≤ budget
    · rw [removals_fits hfits, List.nil_append] at hks
      rw [← hks]
      omega
    · have hsize := hsizes e List.mem_cons_self
      rw [removals_cons (not_le.1 hfits)] at hks
      split_ifs at hks
      · have hrest : es = removals unlinks budget es (total - e.fileSize) ++ ks :=
          (List.cons.inj hks).2
        rw [sizeOf_cons] at hlost
        by_cases hle : e.fileSize ≤ total
        · exact ih (fun x hx => hsizes x (List.mem_cons_of_mem e hx)) (by omega) hrest
        · rw [removals_fits (by omega), List.nil_append] at hrest
          rw [← hrest]
          omega
      · rw [← List.nil_append (e :: es)] at hks
        rw [← (List.append_cancel_left hks : e :: es = ks)]
        omega

end Removals

section Loop
variable {V : Type} [Zero V] [LinearOrder V] {value : KvEntry → V} {unlinks : Bytes → Bool}
  {budget : ℕ} {protectedSha : Option Bytes}

theorem lowered_eq (total size : ℕ) : lowered total size = total - size := by
  unfold lowered
  split_ifs <;> omega

/-- The loop removes the entries in their order. -/
theorem evictLoop_eq (es : List KvEntry) (total : ℕ) (dir : CacheDir) :
    evictLoop value unlinks budget protectedSha es total dir =
      unlinkAll dir (removals unlinks budget (evictionOrder value protectedSha es) total) := by
  fun_induction evictLoop value unlinks budget protectedSha es total dir with
  | case1 total dir => rfl
  | case2 e es total dir h => rw [removals_fits h]; rfl
  | case3 e es total dir h victim rest hunlink ih =>
    have horder : evictionOrder value protectedSha (e :: es) =
        victim.2 :: evictionOrder value protectedSha rest :=
      sortBy_scan (betterVictim_iff value protectedSha) e es
    rw [ih, horder, lowered_eq, removals_cons (not_le.1 h), if_pos hunlink]
    rfl
  | case4 e es total dir h victim rest hunlink ih =>
    have horder : evictionOrder value protectedSha (e :: es) =
        victim.2 :: evictionOrder value protectedSha rest :=
      sortBy_scan (betterVictim_iff value protectedSha) e es
    rw [ih, horder, removals_fits (Nat.zero_le _), removals_cons (not_le.1 h), if_neg hunlink]

end Loop

end Ds4.KvCache
