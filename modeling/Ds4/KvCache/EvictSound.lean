import Ds4.KvCache.Evict
import Ds4.KvCache.Valid
import Mathlib.Tactic.Positivity

/-! What an eviction leaves in the directory, and when that is what it should leave. -/
namespace Ds4.KvCache
open Parts (sortBy_perm sortBy_pairwise)

section Refresh
variable {dir : CacheDir} {e : KvEntry} {f : Bytes × Bytes}

/-- The path of an entry is the name of its file. -/
theorem entry_file (h : entryOf f = some e) :
    e.path = f.1 ∧ e.fileSize = f.2.length ∧ e.fileSize ≠ 0 := by
  obtain ⟨-, rest, -, -, hlen, hpath, hsize⟩ := entryOf_some.1 h
  exact ⟨hpath, hsize, by omega⟩

theorem paths_nodup (dir : CacheDir) : ((refresh dir).map KvEntry.path).Nodup := by
  have hsub : ∀ files : List (Bytes × Bytes),
      List.Sublist ((files.filterMap entryOf).map KvEntry.path) (files.map Prod.fst) := by
    intro files
    induction files with
    | nil => exact List.Sublist.refl _
    | cons f files ih =>
      cases hf : entryOf f with
      | none =>
        rw [List.filterMap_cons_none hf]
        exact ih.cons _
      | some e =>
        rw [List.filterMap_cons_some hf, List.map_cons, List.map_cons, (entry_file hf).1]
        exact ih.cons_cons _
  exact dir.nodup.sublist (hsub dir.files)

theorem refresh_unlink (dir : CacheDir) (path : Bytes) :
    refresh (dir.unlink path) = (refresh dir).filter fun e => e.path ≠ path := by
  unfold refresh CacheDir.unlink
  rw [List.filter_filterMap, List.filterMap_filter]
  apply List.filterMap_congr
  intro f _
  cases hf : entryOf f with
  | none => simp
  | some e => simp [Option.filter, (entry_file hf).1]

theorem refresh_unlinkAll (dir : CacheDir) (es : List KvEntry) :
    refresh (unlinkAll dir es) = (refresh dir).filter fun e => e.path ∉ es.map KvEntry.path := by
  induction es generalizing dir with
  | nil => simp [unlinkAll]
  | cons e es ih =>
    have hstep : unlinkAll dir (e :: es) = unlinkAll (dir.unlink e.path) es := rfl
    rw [hstep, ih, refresh_unlink, List.filter_filter]
    apply List.filter_congr
    intro x _
    simp only [List.map_cons, List.mem_cons, not_or, Bool.decide_and, Bool.and_comm, ne_eq]

/-- Of the entries in some order, those that are not removed are left. -/
theorem refresh_rest {rs ks : List KvEntry} (h : (rs ++ ks).Perm (refresh dir)) :
    (refresh (unlinkAll dir rs)).Perm ks := by
  have hnodup : ((rs ++ ks).map KvEntry.path).Nodup := (h.map _).nodup_iff.2 (paths_nodup dir)
  rw [List.map_append, List.nodup_append] at hnodup
  have hrs : rs.filter (fun e => e.path ∉ rs.map KvEntry.path) = [] := by
    rw [List.filter_eq_nil_iff]
    intro e he hno
    exact of_decide_eq_true hno (List.mem_map_of_mem he)
  have hks : ks.filter (fun e => e.path ∉ rs.map KvEntry.path) = ks := by
    rw [List.filter_eq_self]
    intro e he
    apply decide_eq_true
    intro hmem
    exact hnodup.2.2 _ hmem _ (List.mem_map_of_mem he) rfl
  rw [refresh_unlinkAll]
  have hperm := h.symm.filter fun e => e.path ∉ rs.map KvEntry.path
  rwa [List.filter_append, hrs, hks, List.nil_append] at hperm

theorem sizeOf_perm {es ks : List KvEntry} (h : es.Perm ks) : sizeOf es = sizeOf ks :=
  (h.map _).sum_eq

end Refresh

section Holds
variable {V : Type} [Zero V] [LinearOrder V] (value : KvEntry → V) (kc : KvDiskCache)
  (protectedSha : Option Bytes)

/-- What an eviction is to do, where some files may not be removable. -/
structure EvictionHolds (unlinks : Bytes → Bool) (dir : CacheDir) : Prop where
  fits : (∀ e ∈ refresh dir, unlinks e.path = true) → kc.enabled = true → kc.budgetBytes ≠ 0 →
    sizeOf (refresh (kvCacheEvict value unlinks kc protectedSha dir)) ≤ kc.budgetBytes
  protects : ∀ e ∈ refresh dir, protectedSha = some e.sha → e.fileSize ≤ kc.budgetBytes →
    e ∈ refresh (kvCacheEvict value unlinks kc protectedSha dir)
  least : ∀ e ∈ refresh (kvCacheEvict value unlinks kc protectedSha dir),
    protectedSha ≠ some e.sha → ∀ r ∈ refresh dir,
    r ∉ refresh (kvCacheEvict value unlinks kc protectedSha dir) → value r ≤ value e
  untouched : sizeOf (refresh dir) ≤ kc.budgetBytes →
    kvCacheEvict value unlinks kc protectedSha dir = dir

/-- The entries in the order in which they are evicted. -/
def evicted (dir : CacheDir) : List KvEntry :=
  evictionOrder value (effectiveProtected kc (refresh dir) protectedSha) (refresh dir)

/-- The total of the sizes is not lost, and a protected entry that fits the budget does so with
all that are evicted behind it. -/
def EvictionSound (dir : CacheDir) : Prop :=
  kc.enabled = false ∨ kc.budgetBytes = 0 ∨
    ((sizeOf (refresh dir) < 2 ^ 64 ∨ sizeOf (refresh dir) ≤ kc.budgetBytes) ∧
      ∀ pre e post, evicted value kc protectedSha dir = pre ++ e :: post →
        protectedSha = some e.sha → e.fileSize ≤ kc.budgetBytes →
        sizeOf (e :: post) ≤ kc.budgetBytes)

variable {value kc protectedSha} {unlinks : Bytes → Bool} {dir : CacheDir}

theorem evicted_perm : (evicted value kc protectedSha dir).Perm (refresh dir) := sortBy_perm _ _

theorem kvCacheEvict_off (h : kc.enabled = false ∨ kc.budgetBytes = 0) :
    kvCacheEvict value unlinks kc protectedSha dir = dir := if_pos h

/-- What is removed, what is left, and the order of all. -/
theorem kvCacheEvict_eq (value : KvEntry → V) (unlinks : Bytes → Bool)
    (protectedSha : Option Bytes) (dir : CacheDir)
    (h : ¬ (kc.enabled = false ∨ kc.budgetBytes = 0)) :
    ∃ rs ks, rs = removals unlinks kc.budgetBytes (evicted value kc protectedSha dir)
        (sizeOf (refresh dir) % 2 ^ 64) ∧
      evicted value kc protectedSha dir = rs ++ ks ∧
      kvCacheEvict value unlinks kc protectedSha dir = unlinkAll dir rs ∧
      (refresh (kvCacheEvict value unlinks kc protectedSha dir)).Perm ks := by
  obtain ⟨ks, hks⟩ := removals_prefix unlinks kc.budgetBytes (evicted value kc protectedSha dir)
    (sizeOf (refresh dir) % 2 ^ 64)
  have heq : kvCacheEvict value unlinks kc protectedSha dir = unlinkAll dir
      (removals unlinks kc.budgetBytes (evicted value kc protectedSha dir)
        (sizeOf (refresh dir) % 2 ^ 64)) := by
    unfold kvCacheEvict
    rw [if_neg h]
    exact evictLoop_eq _ _ _
  refine ⟨_, ks, rfl, hks.symm, heq, ?_⟩
  rw [heq]
  apply refresh_rest
  rw [hks]
  exact evicted_perm

theorem effectiveProtected_some {es : List KvEntry} {sha : Bytes}
    (h : effectiveProtected kc es protectedSha = some sha) : protectedSha = some sha := by
  unfold effectiveProtected at h
  split at h
  · cases h
  · simp only at h
    split_ifs at h
    exact h

/-- An entry without protection is worth at least what any other one that scores no more is. -/
theorem value_le_of_score {p : Option Bytes} {e r : KvEntry} (he : p ≠ some e.sha)
    (hsize : e.fileSize ≠ 0) (hr : r.fileSize ≠ 0)
    (hle : evictionScore value p r ≤ evictionScore value p e) : value r ≤ value e := by
  have hscore : evictionScore value p e = value e := by
    unfold evictionScore
    rw [if_neg hsize, if_neg he]
  rw [hscore] at hle
  unfold evictionScore at hle
  rw [if_neg hr] at hle
  split_ifs at hle
  · exact absurd hle (WithTop.coe_lt_top _).not_ge
  · exact WithTop.coe_le_coe.1 hle

theorem not_mem_refresh_of_removed {rs ks : List KvEntry} (h : (rs ++ ks).Perm (refresh dir))
    {r : KvEntry} (hr : r ∈ rs) : r ∉ ks := by
  have hnodup : (rs ++ ks).Nodup := h.nodup_iff.2 (List.Nodup.of_map _ (paths_nodup dir))
  intro hmem
  exact (List.nodup_append.1 hnodup).2.2 r hr r hmem rfl

/-- The entries that are left are never worth less than those removed. -/
theorem kvCacheEvict_least {e r : KvEntry}
    (he : e ∈ refresh (kvCacheEvict value unlinks kc protectedSha dir))
    (hfree : protectedSha ≠ some e.sha) (hr : r ∈ refresh dir)
    (hgone : r ∉ refresh (kvCacheEvict value unlinks kc protectedSha dir)) :
    value r ≤ value e := by
  by_cases hoff : kc.enabled = false ∨ kc.budgetBytes = 0
  · rw [kvCacheEvict_off hoff] at hgone
    exact absurd hr hgone
  · obtain ⟨rs, ks, -, hsplit, -, hperm⟩ := kvCacheEvict_eq value unlinks protectedSha dir hoff
    have hall : (rs ++ ks).Perm (refresh dir) := hsplit ▸ evicted_perm
    have heks : e ∈ ks := hperm.mem_iff.1 he
    have hrrs : r ∈ rs := by
      rcases List.mem_append.1 (hall.mem_iff.2 hr) with hmem | hmem
      · exact hmem
      · exact absurd (hperm.mem_iff.2 hmem) hgone
    have hsorted : (rs ++ ks).Pairwise fun a b =>
        toLex (evictionScore value (effectiveProtected kc (refresh dir) protectedSha) a,
          a.header.lastUsed) ≤
        toLex (evictionScore value (effectiveProtected kc (refresh dir) protectedSha) b,
          b.header.lastUsed) := hsplit ▸ sortBy_pairwise _ _
    have hle := (List.pairwise_append.1 hsorted).2.2 r hrrs e heks
    obtain ⟨fe, -, hfe⟩ := mem_refresh.1 (hall.mem_iff.1 (List.mem_append_right rs heks))
    obtain ⟨fr, -, hfr⟩ := mem_refresh.1 hr
    have hscore : evictionScore value (effectiveProtected kc (refresh dir) protectedSha) r ≤
        evictionScore value (effectiveProtected kc (refresh dir) protectedSha) e := by
      rcases Prod.Lex.toLex_le_toLex.1 hle with hlt | ⟨heq, -⟩
      · exact hlt.le
      · exact heq.le
    exact value_le_of_score (fun h => hfree (effectiveProtected_some h)) (entry_file hfe).2.2
      (entry_file hfr).2.2 hscore

/-- Nothing is removed from a directory that fits. -/
theorem kvCacheEvict_untouched (h : sizeOf (refresh dir) ≤ kc.budgetBytes) :
    kvCacheEvict value unlinks kc protectedSha dir = dir := by
  by_cases hoff : kc.enabled = false ∨ kc.budgetBytes = 0
  · exact kvCacheEvict_off hoff
  · obtain ⟨rs, ks, hrs, -, heq, -⟩ := kvCacheEvict_eq value unlinks protectedSha dir hoff
    rw [removals_fits ((Nat.mod_le _ _).trans h)] at hrs
    rw [heq, hrs]
    rfl

/-- What an entry of the order that is not left was removed with. -/
theorem removed_of_gone {rs ks : List KvEntry} {e : KvEntry}
    (hall : (rs ++ ks).Perm (refresh dir)) (he : e ∈ refresh dir) (hgone : e ∉ ks) : e ∈ rs := by
  rcases List.mem_append.1 (hall.mem_iff.2 he) with hmem | hmem
  · exact hmem
  · exact absurd hmem hgone

theorem EvictionSound.holds (h : EvictionSound value kc protectedSha dir)
    (unlinks : Bytes → Bool) : EvictionHolds value kc protectedSha unlinks dir := by
  refine ⟨?_, ?_, fun e he hfree r hr hgone => kvCacheEvict_least he hfree hr hgone,
    kvCacheEvict_untouched⟩
  · intro hall hon hbudget
    obtain ⟨hsum, -⟩ := (h.resolve_left (by rw [hon]; exact Bool.noConfusion)).resolve_left hbudget
    by_cases hfits : sizeOf (refresh dir) ≤ kc.budgetBytes
    · rw [kvCacheEvict_untouched hfits]
      exact hfits
    · have hoff : ¬ (kc.enabled = false ∨ kc.budgetBytes = 0) := by simp [hon, hbudget]
      obtain ⟨rs, ks, hrs, hsplit, -, hperm⟩ := kvCacheEvict_eq value unlinks
        protectedSha dir hoff
      have hsize : sizeOf (evicted value kc protectedSha dir) = sizeOf (refresh dir) :=
        sizeOf_perm evicted_perm
      rw [Nat.mod_eq_of_lt (hsum.resolve_right hfits), ← hsize] at hrs
      rw [sizeOf_perm hperm]
      exact rest_fits (fun x hx => hall x (evicted_perm.mem_iff.1 hx)) (hrs ▸ hsplit)
  · intro e he hsha hfits
    by_contra hgone
    by_cases hoff : kc.enabled = false ∨ kc.budgetBytes = 0
    · rw [kvCacheEvict_off hoff] at hgone
      exact hgone he
    · obtain ⟨-, hbehind⟩ := (h.resolve_left fun h => hoff (.inl h)).resolve_left
        fun h => hoff (.inr h)
      obtain ⟨rs, ks, hrs, hsplit, -, hperm⟩ := kvCacheEvict_eq value unlinks
        protectedSha dir hoff
      have hmem : e ∈ rs := removed_of_gone (hsplit ▸ evicted_perm) he
        fun hmem => hgone (hperm.mem_iff.2 hmem)
      rw [hrs] at hmem
      have hle : sizeOf (refresh dir) % 2 ^ 64 ≤ sizeOf (evicted value kc protectedSha dir) :=
        (Nat.mod_le _ _).trans (sizeOf_perm evicted_perm).ge
      obtain ⟨pre, post, heq, hover⟩ := over_of_removed hle hmem
      have hunder := hbehind pre e post heq hsha hfits
      omega

/-- An eviction that ends within the budget has summed the sizes of all entries. -/
theorem sum_of_fits (hon : kc.enabled = true) (hbudget : kc.budgetBytes ≠ 0)
    (hsizes : ∀ e ∈ refresh dir, e.fileSize < 2 ^ 63)
    (h : EvictionHolds value kc protectedSha (fun _ => true) dir) :
    sizeOf (refresh dir) < 2 ^ 64 ∨ sizeOf (refresh dir) ≤ kc.budgetBytes := by
  by_contra hwrap
  push Not at hwrap
  have hperm : (evicted value kc protectedSha dir).Perm (refresh dir) := evicted_perm
  have hsize := sizeOf_perm hperm
  have hleft := h.fits (fun _ _ => rfl) hon hbudget
  obtain ⟨rs, ks, hrs, hsplit, -, hrest⟩ := kvCacheEvict_eq value (fun _ => true) protectedSha
    dir (show ¬ (kc.enabled = false ∨ kc.budgetBytes = 0) by simp [hon, hbudget])
  have hmod := Nat.mod_lt (sizeOf (refresh dir)) (show 0 < 2 ^ 64 by positivity)
  have hdiv := Nat.mod_add_div (sizeOf (refresh dir)) (2 ^ 64)
  have hturns : 1 ≤ sizeOf (refresh dir) / 2 ^ 64 :=
    (Nat.one_le_div_iff (by positivity)).2 hwrap.1
  rw [sizeOf_perm hrest] at hleft
  rw [hrs] at hsplit
  by_cases hlow : kc.budgetBytes < 2 ^ 64
  · have hover := rest_over (fun x hx => hsizes x (hperm.mem_iff.1 hx)) hlow (by omega) hsplit
    omega
  · rw [removals_fits (by omega), List.nil_append] at hsplit
    rw [← hsplit, hsize] at hleft
    omega

/-- An eviction that spares the protected entries has room for each and those behind it. -/
theorem behind_of_protects (hon : kc.enabled = true) (hbudget : kc.budgetBytes ≠ 0)
    (hsum : sizeOf (refresh dir) < 2 ^ 64 ∨ sizeOf (refresh dir) ≤ kc.budgetBytes)
    (h : EvictionHolds value kc protectedSha (fun _ => true) dir) {pre post : List KvEntry}
    {e : KvEntry} (heq : evicted value kc protectedSha dir = pre ++ e :: post)
    (hsha : protectedSha = some e.sha) (hfit : e.fileSize ≤ kc.budgetBytes) :
    sizeOf (e :: post) ≤ kc.budgetBytes := by
  by_contra hover
  have hperm : (evicted value kc protectedSha dir).Perm (refresh dir) := evicted_perm
  have hsize := sizeOf_perm hperm
  obtain ⟨rs, ks, hrs, hsplit, -, hrest⟩ := kvCacheEvict_eq value (fun _ => true) protectedSha
    dir (show ¬ (kc.enabled = false ∨ kc.budgetBytes = 0) by simp [hon, hbudget])
  have he : e ∈ refresh dir := by
    rw [← hperm.mem_iff, heq]
    exact List.mem_append_right pre List.mem_cons_self
  have hleft := hrest.mem_iff.1 (h.protects e he hsha hfit)
  have hle : sizeOf (e :: post) ≤ sizeOf (refresh dir) := by
    rw [← hsize, heq]
    unfold sizeOf
    rw [List.map_append, List.sum_append]
    exact Nat.le_add_left _ _
  have hlt : sizeOf (refresh dir) < 2 ^ 64 := hsum.resolve_right (by omega)
  have hgone : e ∈ rs := by
    rw [hrs, Nat.mod_eq_of_lt hlt, ← hsize, heq]
    exact removed_of_over (fun _ => rfl) (not_le.1 hover)
  exact not_mem_refresh_of_removed (hsplit ▸ hperm) hgone hleft

/-- An eviction does what it should, whichever files can be removed, exactly if the sizes of all
entries do not wrap around and a protected entry that fits the budget does so with those evicted
behind it. -/
theorem eviction_holds_iff (value : KvEntry → V) (kc : KvDiskCache) (protectedSha : Option Bytes)
    (disk : Disk) :
    (∀ unlinks, EvictionHolds value kc protectedSha unlinks disk.toCacheDir) ↔
      EvictionSound value kc protectedSha disk.toCacheDir := by
  refine ⟨fun h => ?_, EvictionSound.holds⟩
  by_cases hoff : kc.enabled = false ∨ kc.budgetBytes = 0
  · exact hoff.imp_right .inl
  · push Not at hoff
    have hon : kc.enabled = true := Bool.not_eq_false _ ▸ hoff.1
    have hsizes : ∀ e ∈ refresh disk.toCacheDir, e.fileSize < 2 ^ 63 := by
      intro e he
      obtain ⟨f, hf, hentry⟩ := mem_refresh.1 he
      rw [(entry_file hentry).2.1]
      exact disk.sizes f hf
    have hsum := sum_of_fits hon hoff.2 hsizes (h fun _ => true)
    exact .inr (.inr ⟨hsum, fun pre e post heq hsha hfit =>
      behind_of_protects hon hoff.2 hsum (h fun _ => true) heq hsha hfit⟩)

end Holds

section TwoNames

/-- A cache file without a text, whose payload is zeros. -/
def plainContent (h : KvHeader) : Bytes :=
  kvFillHeader h ++ (lePut32 0 ++ List.replicate h.payloadBytes 0)

theorem plainContent_length (h : KvHeader) : (plainContent h).length = 52 + h.payloadBytes := by
  have hheader : (kvFillHeader h).length = 48 := length_kvFillHeader h
  have htext : (lePut32 0).length = 4 := length_lePut 4 0
  unfold plainContent
  rw [List.length_append, List.length_append, List.length_replicate, hheader, htext]
  omega

theorem plain_entry {h : KvHeader} (hr : h.InRange) {name sha : Bytes}
    (hname : shaHexName name = some sha) (hpayload : h.payloadBytes < 2 ^ 63) :
    entryOf (name, plainContent h) = some ⟨sha, name, h, 0, 52 + h.payloadBytes⟩ := by
  have hread : kvReadHeader (plainContent h) = some (h, 0, List.replicate h.payloadBytes 0) :=
    kvReadHeader_fill hr (by norm_num) (List.replicate h.payloadBytes 0)
  have hfixed : kvFixedHeader = 48 := rfl
  unfold entryOf
  rw [hname, Option.bind_some]
  unfold kvReadEntryFile
  rw [hread]
  simp only
  rw [plainContent_length, if_neg (by omega), if_neg (by omega), if_neg (by omega)]

/-- A checkpoint of 600000 bytes. -/
def twinHeader : KvHeader :=
  { quantBits := 2, reason := 1, extFlags := 0, tokens := 4096, hits := 0, ctxSize := 32768,
    createdAt := 1000, lastUsed := 1000, payloadBytes := 600000 }

theorem twinHeader_inRange : twinHeader.InRange :=
  ⟨.inl rfl, by decide, ⟨by decide, by decide⟩, by decide, by decide, by decide, by decide,
    by decide⟩

/-- The hash in small letters, as the server writes it, and in capital ones. -/
def twinSha : Bytes := List.replicate 40 97

def capitalName : Bytes := List.replicate 40 65 ++ lit ".kv"

/-- A cache directory where two files have the hash, in small and in capital letters. -/
def twinDisk : Disk where
  files := [(capitalName, plainContent twinHeader), (kvPathForSha twinSha, plainContent twinHeader)]
  nodup := by
    show [capitalName, kvPathForSha twinSha].Nodup
    decide
  sizes := by
    intro f hf
    have hcontent : f.2 = plainContent twinHeader := by
      rcases List.mem_pair.1 hf with rfl | rfl <;> rfl
    have hpayload : twinHeader.payloadBytes = 600000 := rfl
    rw [hcontent, plainContent_length, hpayload]
    norm_num

/-- A cache of one MiB. -/
def smallCache : KvDiskCache :=
  { enabled := true, budgetBytes := 2 ^ 20, rejectDifferentQuant := false, minTokens := 512,
    coldMaxTokens := 30000, minTokens_pos := by norm_num }

theorem twin_refresh : refresh twinDisk.toCacheDir =
    [⟨twinSha, capitalName, twinHeader, 0, 52 + twinHeader.payloadBytes⟩,
      ⟨twinSha, kvPathForSha twinSha, twinHeader, 0, 52 + twinHeader.payloadBytes⟩] := by
  have hpayload : twinHeader.payloadBytes < 2 ^ 63 := by decide
  have hcapital : shaHexName capitalName = some twinSha := by decide
  have hsmall : shaHexName (kvPathForSha twinSha) = some twinSha := by decide
  have hfirst := plain_entry twinHeader_inRange hcapital hpayload
  have hsecond := plain_entry twinHeader_inRange hsmall hpayload
  show [(capitalName, plainContent twinHeader),
    (kvPathForSha twinSha, plainContent twinHeader)].filterMap entryOf = _
  rw [List.filterMap_cons_some hfirst, List.filterMap_cons_some hsecond, List.filterMap_nil]

/-- Each of two files of the protected hash fits the budget, but one of them is removed. -/
theorem twinFiles_evicted : ¬ ∀ unlinks, EvictionHolds (entryValue (fun _ => (1 / 2 : ℚ)) 2000)
    smallCache (some twinSha) unlinks twinDisk.toCacheDir := by
  intro h
  have hlen : (evicted (entryValue (fun _ => (1 / 2 : ℚ)) 2000) smallCache (some twinSha)
      twinDisk.toCacheDir).length = 2 := by
    rw [evicted_perm.length_eq, twin_refresh]
    rfl
  obtain ⟨x, y, hxy⟩ := List.length_eq_two.1 hlen
  have hpayload : twinHeader.payloadBytes = 600000 := rfl
  have hentry : ∀ z ∈ [x, y], z.sha = twinSha ∧ z.fileSize = 52 + twinHeader.payloadBytes := by
    intro z hz
    rw [← hxy, evicted_perm.mem_iff, twin_refresh] at hz
    rcases List.mem_pair.1 hz with rfl | rfl <;> exact ⟨rfl, rfl⟩
  have hx := hentry x List.mem_cons_self
  have hy := hentry y (List.mem_cons_of_mem x List.mem_cons_self)
  have hbudget : smallCache.budgetBytes = 1048576 := rfl
  have hsum : sizeOf (refresh twinDisk.toCacheDir) < 2 ^ 64 := by
    rw [twin_refresh, sizeOf_cons, sizeOf_cons]
    decide
  have hsplit : evicted (entryValue (fun _ => (1 / 2 : ℚ)) 2000) smallCache (some twinSha)
      twinDisk.toCacheDir = [] ++ x :: [y] := hxy
  have hroom := behind_of_protects rfl (by omega) (.inl hsum) (h fun _ => true) hsplit
    (congrArg some hx.1.symm) (by omega)
  rw [sizeOf_cons, sizeOf_cons, hx.2, hy.2] at hroom
  omega

end TwoNames

end Ds4.KvCache
