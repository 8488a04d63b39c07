import Ds4.KvCache.Entry

/-! The lookup of a prompt in the disk cache, and what is loaded of the file it finds. -/
namespace Ds4.KvCache

/-- `kv_disk_cache`, with the options that stores and lookups use. -/
structure KvDiskCache where
  enabled : Bool
  budgetBytes : ℕ
  rejectDifferentQuant : Bool
  minTokens : ℕ
  coldMaxTokens : ℕ
  minTokens_pos : 0 < minTokens

/-- A 32-bit number as an `int`. -/
def asInt (n : ℕ) : ℤ := if n < 2 ^ 31 then n else n - 2 ^ 32

section Find
variable (kc : KvDiskCache) (prompt : Bytes) (quantBits : UInt8) (ctxSize : ℕ)

/-- One entry in the loop of `kv_cache_find_text_prefix`. -/
def findStep (best : Option KvEntry) (e : KvEntry) : Option KvEntry :=
  if prompt.length < e.textBytes then best
  else if asInt e.header.tokens < kc.minTokens then best
  else if ctxSize < e.header.ctxSize then best
  else if kc.rejectDifferentQuant = true ∧ e.header.quantBits ≠ quantBits then best
  else if best.any fun b => e.textBytes < b.textBytes then best
  else if best.any fun b => e.textBytes = b.textBytes ∧ e.header.tokens ≤ b.header.tokens then best
  else if sha1Hex (prompt.take e.textBytes) = e.sha then some e
  else best

/-- `kv_cache_find_text_prefix`. -/
def findTextPrefix (dir : CacheDir) : Option KvEntry :=
  (refresh dir).foldl (findStep kc prompt quantBits ctxSize) none

/-- An entry the lookup may use. -/
structure Admits (e : KvEntry) : Prop where
  length : e.textBytes ≤ prompt.length
  tokens : kc.minTokens ≤ asInt e.header.tokens
  ctxSize : e.header.ctxSize ≤ ctxSize
  quant : kc.rejectDifferentQuant = true → e.header.quantBits = quantBits

/-- An entry with the hash of the prompt's prefix of its length. -/
def Matches (e : KvEntry) : Prop :=
  Admits kc prompt quantBits ctxSize e ∧ sha1Hex (prompt.take e.textBytes) = e.sha

/-- The best of some entries. -/
def Best (es : List KvEntry) : Option KvEntry → Prop
  | none => ∀ e ∈ es, ¬ Matches kc prompt quantBits ctxSize e
  | some b => (b ∈ es ∧ Matches kc prompt quantBits ctxSize b) ∧
      ∀ e ∈ es, Matches kc prompt quantBits ctxSize e → e.textBytes ≤ b.textBytes

end Find

section Best
variable {kc : KvDiskCache} {prompt : Bytes} {quantBits : UInt8} {ctxSize : ℕ} {es : List KvEntry}
  {best : Option KvEntry} {e : KvEntry}

/-- An entry that does not become the best one. -/
theorem Best.keep (h : Best kc prompt quantBits ctxSize es best)
    (he : Matches kc prompt quantBits ctxSize e → ∃ b, best = some b ∧ e.textBytes ≤ b.textBytes) :
    Best kc prompt quantBits ctxSize (es ++ [e]) best := by
  cases best with
  | none =>
    intro x hx
    rcases List.mem_append.1 hx with hx | hx
    · exact h x hx
    · rw [List.mem_singleton.1 hx]
      intro hm
      obtain ⟨b, hb, -⟩ := he hm
      cases hb
  | some b =>
    obtain ⟨⟨hmem, hmatch⟩, hall⟩ := h
    refine ⟨⟨List.mem_append_left _ hmem, hmatch⟩, ?_⟩
    intro x hx hm
    rcases List.mem_append.1 hx with hx | hx
    · exact hall x hx hm
    · rw [List.mem_singleton.1 hx] at hm ⊢
      obtain ⟨c, hc, hle⟩ := he hm
      exact Option.some.inj hc ▸ hle

/-- An entry that becomes the best one. -/
theorem Best.replace (h : Best kc prompt quantBits ctxSize es best)
    (he : Matches kc prompt quantBits ctxSize e)
    (hle : ∀ b, best = some b → b.textBytes ≤ e.textBytes) :
    Best kc prompt quantBits ctxSize (es ++ [e]) (some e) := by
  refine ⟨⟨by simp, he⟩, ?_⟩
  intro x hx hm
  rcases List.mem_append.1 hx with hx | hx
  · cases best with
    | none => exact absurd hm (h x hx)
    | some b => exact (h.2 x hx hm).trans (hle b rfl)
  · rw [List.mem_singleton.1 hx]

theorem Best.step (h : Best kc prompt quantBits ctxSize es best) (e : KvEntry) :
    Best kc prompt quantBits ctxSize (es ++ [e]) (findStep kc prompt quantBits ctxSize best e) := by
  unfold findStep
  split_ifs with hlen htokens hctx hquant hless hequal hsha
  · exact h.keep fun hm => absurd hm.1.length (by omega)
  · exact h.keep fun hm => absurd hm.1.tokens (by omega)
  · exact h.keep fun hm => absurd hm.1.ctxSize (by omega)
  · exact h.keep fun hm => absurd (hm.1.quant hquant.1) hquant.2
  · apply h.keep
    intro _
    obtain ⟨b, hb, hlt⟩ := Option.any_eq_true _ _ |>.1 hless
    exact ⟨b, hb, (of_decide_eq_true hlt).le⟩
  · apply h.keep
    intro _
    obtain ⟨b, hb, heq⟩ := Option.any_eq_true _ _ |>.1 hequal
    exact ⟨b, hb, (of_decide_eq_true heq).1.le⟩
  · apply h.replace
    · refine ⟨⟨by omega, by omega, by omega, ?_⟩, hsha⟩
      intro hreject
      by_contra hne
      exact hquant ⟨hreject, hne⟩
    · rintro b rfl
      simp only [Option.any_some, decide_eq_true_iff] at hless
      omega
  · exact h.keep fun hm => absurd hm.2 hsha

/-- The lookup finds the longest entry that matches. -/
theorem findTextPrefix_best (kc : KvDiskCache) (prompt : Bytes) (quantBits : UInt8) (ctxSize : ℕ)
    (dir : CacheDir) : Best kc prompt quantBits ctxSize (refresh dir)
      (findTextPrefix kc prompt quantBits ctxSize dir) := by
  have hfold : ∀ es : List KvEntry, Best kc prompt quantBits ctxSize es
      (es.foldl (findStep kc prompt quantBits ctxSize) none) := by
    intro es
    induction es using List.reverseRecOn with
    | nil =>
      intro e he
      cases he
    | append_singleton es e ih =>
      rw [List.foldl_append]
      exact ih.step e
  exact hfold (refresh dir)

end Best

/-- A file whose text is a prefix of the prompt: its header, the text, and what follows it. -/
structure CheckedFile where
  entry : KvEntry
  header : KvHeader
  text : Bytes
  rest : Bytes

/-- The checks of `kv_cache_try_load_text` in front of the payload. -/
def checkedFile (kc : KvDiskCache) (dir : CacheDir) (prompt : Bytes) (quantBits : UInt8)
    (ctxSize : ℕ) : Option CheckedFile :=
  if kc.enabled = false then none
  else if quantBits ≠ 2 ∧ quantBits ≠ 4 then none
  else
    match findTextPrefix kc prompt quantBits ctxSize dir with
    | none => none
    | some e =>
        match dir.content e.path with
        | none => none
        | some content =>
            match kvReadHeader content with
            | none => none
            | some (header, textBytes, rest) =>
                if prompt.length < textBytes then none
                else if rest.length < textBytes then none
                else
                  let text := rest.take textBytes
                  if sha1Hex text ≠ e.sha then none
                  else if text <+: prompt then some ⟨e, header, text, rest.drop textBytes⟩
                  else none

/-- What is loaded stands behind a text that is a prefix of the prompt. -/
theorem checkedFile_prefix {kc : KvDiskCache} {dir : CacheDir} {prompt : Bytes} {quantBits : UInt8}
    {ctxSize : ℕ} {file : CheckedFile}
    (h : checkedFile kc dir prompt quantBits ctxSize = some file) :
    (∃ content textBytes rest, dir.content file.entry.path = some content ∧
      kvReadHeader content = some (file.header, textBytes, rest) ∧
      file.text = rest.take textBytes ∧ file.text.length = textBytes ∧
      file.rest = rest.drop textBytes) ∧ file.text <+: prompt := by
  unfold checkedFile at h
  split_ifs at h
  cases hfind : findTextPrefix kc prompt quantBits ctxSize dir with
  | none =>
    rw [hfind] at h
    cases h
  | some e =>
    rw [hfind] at h
    simp only at h
    cases hcontent : dir.content e.path with
    | none =>
      rw [hcontent] at h
      cases h
    | some content =>
      rw [hcontent] at h
      simp only at h
      cases hread : kvReadHeader content with
      | none =>
        rw [hread] at h
        cases h
      | some r =>
        obtain ⟨header, textBytes, rest⟩ := r
        rw [hread] at h
        simp only at h
        split_ifs at h with hlong hshort hsha hpre
        obtain rfl := Option.some.inj h
        refine ⟨⟨content, textBytes, rest, hcontent, hread, rfl, ?_, rfl⟩, hpre⟩
        show (rest.take textBytes).length = textBytes
        rw [List.length_take]
        omega

end Ds4.KvCache
