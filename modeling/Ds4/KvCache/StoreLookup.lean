import Ds4.KvCache.Store
import Ds4.KvCache.Valid

/-! A lookup behind a store: the text that was stored is found, or a longer one, unless the file
that the store kept has too few tokens for the lookup. -/
namespace Ds4.KvCache
open Memory

/-- The directory behind a store: one file holds the text, and the others are as they were. -/
structure StoredAs (dir dir' : CacheDir) (text : Bytes) (content : Bytes) (e : KvEntry) : Prop where
  others : ∀ f : Bytes × Bytes, f.1 ≠ kvPathForSha (sha1Hex text) →
    (f ∈ dir'.files ↔ f ∈ dir.files)
  file : Holds dir' (kvPathForSha (sha1Hex text), content) e
  stored : storedText (kvPathForSha (sha1Hex text), content) e = text

/-- A file of the text that the store keeps, as this server can use it. -/
structure Kept (kc : KvDiskCache) (dir : CacheDir) (text : Bytes) (quantBits : UInt8)
    (ctxSize : ℕ) (content : Bytes) (e : KvEntry) : Prop where
  found : dir.content (kvPathForSha (sha1Hex text)) = some content
  entry : kvReadEntryFile (kvPathForSha (sha1Hex text)) (sha1Hex text) content = some e
  usable : compatible kc quantBits ctxSize (sha1Hex text) text content e = true

section Rewrite
variable {dir : CacheDir} {path : Bytes} {content content' : Bytes} {e : KvEntry} {h : KvHeader}

/-- Contents with the same text under a header with the same lengths are an entry too. -/
theorem entry_rewritten (hentry : entryOf (path, content) = some e)
    (hread : kvReadHeader content' = some (h, e.textBytes, content'.drop 52))
    (hpayload : h.payloadBytes = e.header.payloadBytes)
    (hkept : (content.take (52 + e.textBytes + e.header.payloadBytes)).drop 52 <+:
      content'.drop 52) :
    entryOf (path, content') = some ⟨e.sha, e.path, h, e.textBytes, content'.length⟩ ∧
      storedText (path, content') ⟨e.sha, e.path, h, e.textBytes, content'.length⟩ =
        storedText (path, content) e := by
  obtain ⟨hname, rest, -, hover, hlen, hpath, -⟩ := entryOf_some.1 hentry
  simp only at hlen hpath
  have hcontent := (kvReadHeader_some hread).1.1
  have hle := hkept.length_le
  rw [List.length_drop, List.length_drop, List.length_take_of_le hlen] at hle
  constructor
  · apply entryOf_some.2
    refine ⟨hname, _, hread, ?_, ?_, hpath, rfl⟩
    · simp only
      rwa [hpayload]
    · simp only
      omega
  · unfold storedText
    simp only
    obtain ⟨t, ht⟩ := hkept
    rw [← ht, List.drop_take, List.take_append_of_le_length, List.take_take]
    · congr 1
      omega
    · rw [List.length_take, List.length_drop]
      omega

/-- The header is written anew over the bytes it had. -/
theorem read_header_over {s : Bytes} (hs : 52 ≤ s.length) (hr : h.InRange) :
    kvReadHeader (kvFillHeader h ++ s.drop kvFixedHeader) =
        some (h, leGet (field s 48 4), s.drop 52) ∧
      (kvFillHeader h ++ s.drop kvFixedHeader).drop 52 = s.drop 52 := by
  have hlen : (kvFillHeader h).length = 48 := length_kvFillHeader h
  have hfield : (field s 48 4).length = 4 := by
    unfold field
    rw [List.length_take, List.length_drop]
    omega
  have hsplit : s.drop kvFixedHeader = field s 48 4 ++ s.drop 52 := by
    show s.drop 48 = (s.drop 48).take 4 ++ s.drop 52
    rw [← List.drop_drop (i := 4) (j := 48), List.take_append_drop]
  rw [hsplit]
  refine ⟨kvReadHeader_written hr hfield _, ?_⟩
  rw [← List.append_assoc]
  apply List.drop_left'
  rw [List.length_append, hlen, hfield]

/-- A file that is put is the one of its name. -/
theorem put_others (dir : CacheDir) (path content : Bytes) {f : Bytes × Bytes} (hf : f.1 ≠ path) :
    f ∈ (dir.put path content).files ↔ f ∈ dir.files := by
  rw [CacheDir.mem_put]
  constructor
  · rintro (h | rfl)
    · exact h.1
    · exact absurd rfl hf
  · intro h
    exact Or.inl ⟨h, hf⟩

theorem mem_put_self (dir : CacheDir) (path content : Bytes) :
    (path, content) ∈ (dir.put path content).files :=
  (dir.mem_put).2 (Or.inr rfl)

/-- A tool map that is written anew leaves the text and what a lookup asks of the entry. -/
theorem rewriteToolMap_keeps (m : ToolMemory) (text : Bytes) (now : UInt64)
    (hfile : Holds dir (path, content) e) :
    (∀ f : Bytes × Bytes, f.1 ≠ path →
        (f ∈ (rewriteToolMap dir m path text now).files ↔ f ∈ dir.files)) ∧
      ∃ content' e', Holds (rewriteToolMap dir m path text now) (path, content') e' ∧
        storedText (path, content') e' = storedText (path, content) e ∧
        e'.header.tokens = e.header.tokens ∧ e'.header.ctxSize = e.header.ctxSize ∧
        e'.header.quantBits = e.header.quantBits := by
  obtain ⟨hname, rest, hread, hover, hlen, hpath, -⟩ := entryOf_some.1 hfile.entry
  simp only at hread hlen hpath
  obtain ⟨⟨h52, hrest, htext⟩, hrange⟩ := kvReadHeader_some hread
  simp only at hrest htext hrange
  -- contents that start with what was kept
  have hput : ∀ s, content.take (52 + e.textBytes + e.header.payloadBytes) <+: s →
      ∃ content' e', Holds (dir.put path s) (path, content') e' ∧
        storedText (path, content') e' = storedText (path, content) e ∧
        e'.header.tokens = e.header.tokens ∧ e'.header.ctxSize = e.header.ctxSize ∧
        e'.header.quantBits = e.header.quantBits := by
    intro s hs
    have htake : content.take 52 <+: s :=
      (List.take_prefix_take_left (by omega)).trans hs
    obtain ⟨hentry, hsame⟩ := entry_rewritten hfile.entry (kvReadHeader_take hread htake) rfl
      (hs.drop 52)
    exact ⟨s, _, ⟨mem_put_self dir path s, hentry⟩, hsame, rfl, rfl, rfl⟩
  have hcontent : dir.content path = some content := dir.content_some.2 hfile.mem
  unfold rewriteToolMap
  by_cases hcount : countDsmlInText m (cstr text) = 0
  · rw [if_pos hcount]
    exact ⟨fun f _ => Iff.rfl, content, e, hfile, rfl, rfl, rfl, rfl⟩
  rw [if_neg hcount, hcontent]
  simp only
  rw [hread]
  simp only
  by_cases hstop : 2 ^ 63 - 1 < kvFixedHeader + 4 + e.textBytes + e.header.payloadBytes
  · rw [if_pos hstop]
    exact ⟨fun f _ => Iff.rfl, content, e, hfile, rfl, rfl, rfl, rfl⟩
  rw [if_neg hstop]
  have h52' : kvFixedHeader + 4 = 52 := rfl
  rw [h52']
  cases hwrite : (m.kvToolMapWrite (cstr text)).2 with
  | none =>
    exact ⟨fun f hf => put_others dir path _ hf, hput _ List.prefix_rfl⟩
  | some r =>
    obtain ⟨sec, written⟩ := r
    simp only
    by_cases hpos : 0 < written
    · rw [if_pos hpos]
      refine ⟨fun f hf => put_others dir path _ hf, ?_⟩
      -- the header written over the old one
      have hkept : (content.take (52 + e.textBytes + e.header.payloadBytes)).length =
          52 + e.textBytes + e.header.payloadBytes := List.length_take_of_le hlen
      have hr : ({ e.header with
          extFlags := e.header.extFlags ||| kvExtToolMap, lastUsed := now.toNat } :
          KvHeader).InRange :=
        ⟨hrange.quant, hrange.reason, hrange.tokens, hrange.hits, hrange.ctxSize, hrange.createdAt,
          now.toNat_lt, hrange.payloadBytes⟩
      have hs : 52 ≤ (content.take (52 + e.textBytes + e.header.payloadBytes) ++ sec).length := by
        rw [List.length_append, hkept]
        omega
      obtain ⟨hreadNew, hdropNew⟩ := read_header_over hs hr
      have hfield : field (content.take (52 + e.textBytes + e.header.payloadBytes) ++ sec) 48 4 =
          field content 48 4 := by
        unfold field
        rw [List.drop_append_of_le_length (by omega), List.take_append_of_le_length,
          List.drop_take, List.take_take, Nat.min_eq_left (by omega)]
        rw [List.length_drop]
        omega
      rw [hfield, ← htext, ← hdropNew] at hreadNew
      obtain ⟨hentry, hsame⟩ := entry_rewritten hfile.entry hreadNew rfl (by
        rw [hdropNew]
        exact (List.prefix_append _ sec).drop 52)
      exact ⟨_, _, ⟨mem_put_self dir path _, hentry⟩, hsame, rfl, rfl, rfl⟩
    · rw [if_neg hpos]
      exact ⟨fun f hf => put_others dir path _ hf, hput _ (List.prefix_append _ sec)⟩

end Rewrite

section Store
variable {kc : KvDiskCache} {engine : KvEngine} {session : KvSession} {m : ToolMemory}
  {now : UInt64} {dir dir' : CacheDir} {req : StoreRequest}

/-- Whether the store keeps a file, and the directory it goes on with. -/
theorem existingCompatible_cases (kc : KvDiskCache) (dir : CacheDir) (text : Bytes)
    (quantBits : UInt8) (ctxSize : ℕ) :
    (existingCompatible kc dir (kvPathForSha (sha1Hex text)) (sha1Hex text) text quantBits ctxSize =
        (true, dir) ∧ ∃ content e, Kept kc dir text quantBits ctxSize content e) ∨
      ∃ rest, existingCompatible kc dir (kvPathForSha (sha1Hex text)) (sha1Hex text) text quantBits
          ctxSize = (false, rest) ∧
        (rest = dir ∨ rest = dir.unlink (kvPathForSha (sha1Hex text))) ∧
        ∀ content e, ¬ Kept kc dir text quantBits ctxSize content e := by
  unfold existingCompatible
  cases hcontent : dir.content (kvPathForSha (sha1Hex text)) with
  | none =>
    refine Or.inr ⟨dir, rfl, Or.inl rfl, ?_⟩
    intro content e hkept
    rw [hkept.found] at hcontent
    cases hcontent
  | some content =>
    simp only
    cases hread : kvReadEntryFile (kvPathForSha (sha1Hex text)) (sha1Hex text) content with
    | none =>
      refine Or.inr ⟨dir, rfl, Or.inl rfl, ?_⟩
      intro content' e hkept
      obtain rfl := Option.some.inj (hcontent.symm.trans hkept.found)
      rw [hkept.entry] at hread
      cases hread
    | some e =>
      simp only
      by_cases hcompat : compatible kc quantBits ctxSize (sha1Hex text) text content e = true
      · rw [if_pos hcompat]
        exact Or.inl ⟨rfl, content, e, hcontent, hread, hcompat⟩
      · rw [if_neg hcompat]
        refine Or.inr ⟨_, rfl, Or.inr rfl, ?_⟩
        intro content' e' hkept
        obtain rfl := Option.some.inj (hcontent.symm.trans hkept.found)
        obtain rfl := Option.some.inj (hread.symm.trans hkept.entry)
        exact hcompat hkept.usable

/-- A file that fits in the budget has a size in the range of the header. -/
theorem kvFileSizeFits_le {textBytes payloadBytes toolMapBytes : ℕ}
    (h : kvFileSizeFits kc textBytes payloadBytes toolMapBytes = true) :
    52 + textBytes + payloadBytes ≤ maxU64 := by
  have hfixed : kvFixedHeader = 48 := rfl
  unfold kvFileSizeFits kvFileSizeBytes at h
  have hmax : 52 ≤ maxU64 := by
    unfold maxU64
    omega
  by_cases hover : maxU64 - (kvFixedHeader + 4) < textBytes ∨
      maxU64 - (kvFixedHeader + 4) - textBytes < payloadBytes ∨
      maxU64 - (kvFixedHeader + 4) - textBytes - payloadBytes < toolMapBytes
  · simp only at h
    rw [if_pos hover] at h
    cases h
  · omega

/-- What a store that succeeds has checked, and the directory it leaves. -/
theorem store_cases (h : storeLivePrefixText kc engine session m now dir req = some dir') :
    (kc.enabled = true ∧ (kc.minTokens : ℤ) ≤ req.storeLen ∧
      (engine.quantBits = 2 ∨ engine.quantBits = 4) ∧
      (∃ live ∈ session.tokens, live.length = req.storeTokens.length) ∧
      (req.text engine).length ≤ maxU32) ∧
    ((∃ content e, Kept kc dir (req.text engine) engine.quantBits session.ctxSize content e ∧
        ∃ m', dir' =
          rewriteToolMap dir m' (kvPathForSha (sha1Hex (req.text engine))) (req.text engine) now) ∨
      ((∀ content e, ¬ Kept kc dir (req.text engine) engine.quantBits session.ctxSize content e) ∧
        ∃ rest estimate sec, (rest = dir ∨
            rest = dir.unlink (kvPathForSha (sha1Hex (req.text engine)))) ∧
          52 + (req.text engine).length + session.payload.length ≤ maxU64 ∧
          dir' = rest.put (kvPathForSha (sha1Hex (req.text engine)))
            (kvFillHeader (req.header engine session estimate now) ++
              (lePut32 (req.text engine).length ++
                (req.text engine ++ (session.payload ++ sec)))))) := by
  unfold storeLivePrefixText at h
  split_ifs at h with hen hquant hlive hpayload
  simp only at h
  split_ifs at h with htext
  cases hsize : m.kvToolMapSerializedSize (cstr (req.text engine)) with
  | mk m' estimate =>
    rw [hsize] at h
    cases estimate with
    | none => cases h
    | some estimate =>
      simp only at h
      split_ifs at h with hfits
      have hchecked : kc.enabled = true ∧ (kc.minTokens : ℤ) ≤ req.storeLen ∧
          (engine.quantBits = 2 ∨ engine.quantBits = 4) ∧
          (∃ live ∈ session.tokens, live.length = req.storeTokens.length) ∧
          (req.text engine).length ≤ maxU32 := by
        push Not at hen hquant hlive htext
        refine ⟨by simpa using hen.1, hen.2, ?_, ?_, htext⟩
        · by_cases h2 : engine.quantBits = 2
          · exact Or.inl h2
          · exact Or.inr (hquant h2)
        · obtain ⟨live, hmem, hlen, -⟩ := hlive
          exact ⟨live, hmem, hlen⟩
      refine ⟨hchecked, ?_⟩
      rcases existingCompatible_cases kc dir (req.text engine) engine.quantBits session.ctxSize with
        ⟨hsome, content, e, hkept⟩ | ⟨rest, hnone, hrest, hkept⟩
      · rw [hsome] at h
        exact Or.inl ⟨content, e, hkept, m', (Option.some.inj h).symm⟩
      · rw [hnone] at h
        simp only at h
        cases hwrite : (m'.kvToolMapWrite (cstr (req.text engine))).2 with
        | none =>
          rw [hwrite] at h
          cases h
        | some r =>
          obtain ⟨sec, written⟩ := r
          rw [hwrite] at h
          simp only at h
          split_ifs at h with hfits'
          refine Or.inr ⟨hkept, rest, estimate, sec, hrest, ?_, (Option.some.inj h).symm⟩
          exact kvFileSizeFits_le (by simpa using hfits)

/-- The store keeps a file of the text, but with fewer tokens than the lookup asks for. -/
def KeptFew (kc : KvDiskCache) (dir : CacheDir) (text : Bytes) (quantBits : UInt8)
    (ctxSize : ℕ) : Prop :=
  ∃ content e, Kept kc dir text quantBits ctxSize content e ∧
    asInt e.header.tokens < kc.minTokens

theorem Kept.unique {text : Bytes} {quantBits : UInt8} {ctxSize : ℕ} {content content' : Bytes}
    {e e' : KvEntry} (h : Kept kc dir text quantBits ctxSize content e)
    (h' : Kept kc dir text quantBits ctxSize content' e') : e = e' := by
  obtain rfl := Option.some.inj (h.found.symm.trans h'.found)
  exact Option.some.inj (h.entry.symm.trans h'.entry)

/-- A file that is kept holds the text. -/
theorem Kept.stored {text : Bytes} {quantBits : UInt8} {ctxSize : ℕ} {content : Bytes}
    {e : KvEntry} (h : Kept kc dir text quantBits ctxSize content e) :
    (Holds dir (kvPathForSha (sha1Hex text), content) e ∧
      storedText (kvPathForSha (sha1Hex text), content) e = text) ∧
    e.header.ctxSize ≤ ctxSize ∧
      (kc.rejectDifferentQuant = true → e.header.quantBits = quantBits) := by
  obtain ⟨rest, hread, hover, hlen, hsha, hpath, hsize⟩ := kvReadEntryFile_some.1 h.entry
  have husable := h.usable
  unfold compatible at husable
  rw [Bool.and_eq_true, Bool.and_eq_true, Bool.or_eq_true, decide_eq_true_iff,
    decide_eq_true_iff] at husable
  obtain ⟨⟨hquant, hctx⟩, htext⟩ := husable
  refine ⟨⟨⟨dir.content_some.1 h.found, ?_⟩, ?_⟩, hctx, ?_⟩
  · apply entryOf_some.2
    refine ⟨?_, rest, hread, hover, hlen, hpath, hsize⟩
    rw [hsha]
    exact shaHexName_path text
  · unfold fileTextMatches at htext
    rw [hread] at htext
    simp only [Bool.and_eq_true, decide_eq_true_iff] at htext
    have hrest := (kvReadHeader_some hread).1.2.1
    simp only at hrest
    unfold storedText
    simp only
    rw [← hrest]
    exact htext.2
  · intro hreject
    rcases hquant with hquant | hquant
    · rw [hreject] at hquant
      cases hquant
    · exact hquant

theorem kvReasonCode_le (reason : Bytes) : kvReasonCode reason ≤ kvReasonShutdown := by
  unfold kvReasonCode kvReasonShutdown
  split_ifs <;> decide

/-- The header of a new file is in range. -/
theorem header_inRange {estimate : ℕ} (hlen : (kc.minTokens : ℤ) ≤ req.storeLen)
    (hquant : engine.quantBits = 2 ∨ engine.quantBits = 4)
    (hlive : ∃ live ∈ session.tokens, live.length = req.storeTokens.length)
    (hpayload : 52 + (req.text engine).length + session.payload.length ≤ maxU64) :
    (req.header engine session estimate now).InRange ∧
      (kc.minTokens : ℤ) ≤ asInt (req.header engine session estimate now).tokens := by
  obtain ⟨live, hmem, hlivelen⟩ := hlive
  have hlt := session.tokens_lt live hmem
  have hctx := session.ctxSize_lt
  have hstore : (req.storeTokens.length : ℤ) = req.storeLen := by
    have hle := req.storeLen_le
    have hpos := kc.minTokens_pos
    unfold StoreRequest.storeTokens
    rw [List.length_take]
    omega
  have hpos := kc.minTokens_pos
  have htokens : (req.header engine session estimate now).tokens = req.storeTokens.length := rfl
  constructor
  · refine ⟨hquant, kvReasonCode_le req.reason, ⟨?_, ?_⟩, ?_, ?_, now.toNat_lt, now.toNat_lt, ?_⟩
    · rw [htokens]
      omega
    · rw [htokens]
      omega
    · exact Nat.two_pow_pos 32
    · show session.ctxSize < 2 ^ 32
      omega
    · show session.payload.length < 2 ^ 64
      unfold maxU64 at hpayload
      omega
  · rw [htokens]
    unfold asInt
    rw [if_pos (by omega)]
    omega

/-- A new file is an entry of its text. -/
theorem entry_new {h : KvHeader} {text payload : Bytes} (hr : h.InRange)
    (htext : text.length ≤ maxU32) (hsize : 52 + text.length + h.payloadBytes ≤ maxU64)
    (hpayload : h.payloadBytes = payload.length) (sec : Bytes) :
    entryOf (kvPathForSha (sha1Hex text),
        kvFillHeader h ++ (lePut32 text.length ++ (text ++ (payload ++ sec)))) =
      some ⟨sha1Hex text, kvPathForSha (sha1Hex text), h, text.length,
        (kvFillHeader h ++ (lePut32 text.length ++ (text ++ (payload ++ sec)))).length⟩ ∧
    storedText (kvPathForSha (sha1Hex text),
        kvFillHeader h ++ (lePut32 text.length ++ (text ++ (payload ++ sec))))
      ⟨sha1Hex text, kvPathForSha (sha1Hex text), h, text.length,
        (kvFillHeader h ++ (lePut32 text.length ++ (text ++ (payload ++ sec)))).length⟩ = text := by
  have hlt : text.length < 2 ^ 32 := by
    unfold maxU32 at htext
    omega
  have hread := kvReadHeader_fill hr hlt (text ++ (payload ++ sec))
  constructor
  · apply entryOf_some.2
    refine ⟨shaHexName_path _, _, hread, hsize, ?_, rfl, rfl⟩
    have hheader : (kvFillHeader h).length = 48 := length_kvFillHeader h
    have hlength : (lePut32 text.length).length = 4 := length_lePut 4 _
    simp only [List.length_append]
    omega
  · have hdrop := (kvReadHeader_some hread).1.2.1
    simp only at hdrop
    unfold storedText
    simp only
    rw [← hdrop]
    exact List.take_left

/-- A store leaves one file of the text, and the other files as they were. -/
theorem store_spec (h : storeLivePrefixText kc engine session m now dir req = some dir') :
    ∃ content e, StoredAs dir dir' (req.text engine) content e ∧
      e.header.ctxSize ≤ session.ctxSize ∧
      (kc.rejectDifferentQuant = true → e.header.quantBits = engine.quantBits) ∧
      ((kc.minTokens : ℤ) ≤ asInt e.header.tokens ↔
        ¬ KeptFew kc dir (req.text engine) engine.quantBits session.ctxSize) := by
  obtain ⟨⟨-, hstoreLen, hquant, hlive, htext⟩, ⟨content, e, hkept, m', rfl⟩ |
    ⟨hno, rest, estimate, sec, hrest, hsize, rfl⟩⟩ := store_cases h
  · obtain ⟨⟨hholds, hstored⟩, hctx, hquant'⟩ := hkept.stored
    obtain ⟨hothers, content', e', hholds', hsame, htokens, hctx', hq'⟩ :=
      rewriteToolMap_keeps m' (req.text engine) now hholds
    refine ⟨content', e', ⟨hothers, hholds', hsame.trans hstored⟩, hctx' ▸ hctx, ?_, ?_⟩
    · intro hreject
      rw [hq', hquant' hreject]
    · rw [htokens]
      constructor
      · rintro hle ⟨content'', e'', hkept', hfew⟩
        rw [← hkept.unique hkept'] at hfew
        omega
      · intro hfew
        by_contra hlt
        exact hfew ⟨content, e, hkept, by omega⟩
  · obtain ⟨hrange, htokens⟩ : (req.header engine session estimate now).InRange ∧
        (kc.minTokens : ℤ) ≤ asInt (req.header engine session estimate now).tokens :=
      header_inRange hstoreLen hquant hlive hsize
    obtain ⟨hentry, hstored⟩ := entry_new hrange htext hsize rfl sec
    refine ⟨_, _, ⟨?_, ⟨mem_put_self rest _ _, hentry⟩, hstored⟩, le_rfl, fun _ => rfl, ?_⟩
    · intro f hf
      rw [put_others rest _ _ hf]
      rcases hrest with rfl | rfl
      · rfl
      · rw [dir.mem_unlink]
        exact and_iff_left hf
    · constructor
      · rintro - ⟨content, e, hkept, -⟩
        exact hno content e hkept
      · exact fun _ => htokens

end Store

section Found
variable (kc : KvDiskCache) (prompt : Bytes) (quantBits : UInt8) (ctxSize : ℕ) (dir : CacheDir)
  (text : Bytes)

/-- No other file's text is longer than `n` and has the hash of a prefix of the prompt without
being one. -/
def CollidesUpTo (n : ℕ) : Prop :=
  ∀ g c, g.1 ≠ kvPathForSha (sha1Hex text) → Collides kc prompt quantBits ctxSize dir g c →
    c.textBytes ≤ n

/-- Another file than the one of the text holds a prefix of the prompt, and a longer one. -/
def LongerStored : Prop :=
  ∃ f e, f.1 ≠ kvPathForSha (sha1Hex text) ∧ StoredPrefix kc prompt quantBits ctxSize dir f e ∧
    text.length ≤ e.textBytes ∧ CollidesUpTo kc prompt quantBits ctxSize dir text e.textBytes

/-- What a lookup can rely on in a directory that a text was stored in: it finds the longest stored
prefix, which is no shorter; what is loaded stands behind a prefix of the prompt; and a header is
read back as it was written. -/
structure StoreThenLookup : Prop where
  found : FindsLongest kc prompt quantBits ctxSize text.length dir
  loaded : ∀ file, checkedFile kc dir prompt quantBits ctxSize = some file →
    ∃ content textBytes rest, dir.content file.entry.path = some content ∧
      kvReadHeader content = some (file.header, textBytes, rest) ∧ rest.take textBytes <+: prompt
  header : ∀ (h : KvHeader) (textBytes : ℕ) (rest : Bytes), h.InRange → textBytes < 2 ^ 32 →
    kvReadHeader (kvFillHeader h ++ (lePut32 textBytes ++ rest)) = some (h, textBytes, rest)

end Found

section Lookup
variable {kc : KvDiskCache} {engine : KvEngine} {session : KvSession} {m : ToolMemory}
  {now : UInt64} {dir dir' : CacheDir} {req : StoreRequest} {prompt : Bytes} {quantBits : UInt8}
  {ctxSize : ℕ} {text content : Bytes} {e : KvEntry}

theorem StoredAs.holds_iff (h : StoredAs dir dir' text content e) {f : Bytes × Bytes} {c : KvEntry}
    (hf : f.1 ≠ kvPathForSha (sha1Hex text)) : Holds dir' f c ↔ Holds dir f c := by
  have hmem := h.others f hf
  constructor
  · intro hc
    exact ⟨hmem.1 hc.mem, hc.entry⟩
  · intro hc
    exact ⟨hmem.2 hc.mem, hc.entry⟩

/-- The file of the text is the one that was stored. -/
theorem StoredAs.holds_self (h : StoredAs dir dir' text content e) {f : Bytes × Bytes}
    {c : KvEntry} (hf : f.1 = kvPathForSha (sha1Hex text)) (hc : Holds dir' f c) :
    f = (kvPathForSha (sha1Hex text), content) ∧ c = e :=
  hc.content_unique h.file hf

theorem StoredAs.length (h : StoredAs dir dir' text content e) : e.textBytes = text.length := by
  rw [← length_storedText h.file.entry, h.stored]

theorem StoredAs.valid (h : StoredAs dir dir' text content e) (hvalid : ValidDir dir) :
    ValidDir dir' := by
  intro f c hc
  by_cases hf : f.1 = kvPathForSha (sha1Hex text)
  · obtain ⟨rfl, rfl⟩ := h.holds_self hf hc
    rw [h.stored]
  · exact hvalid f c ((h.holds_iff hf).1 hc)

/-- Only other files collide with a prompt that extends the text. -/
theorem StoredAs.collides_iff (h : StoredAs dir dir' text content e) (hpre : text <+: prompt)
    (n : ℕ) :
    (∀ g c, Collides kc prompt quantBits ctxSize dir' g c → c.textBytes ≤ n) ↔
      CollidesUpTo kc prompt quantBits ctxSize dir text n := by
  constructor
  · intro hall g c hg hc
    exact hall g c ⟨(h.holds_iff hg).2 hc.holds, hc.matched, hc.text⟩
  · intro hall g c hc
    by_cases hg : g.1 = kvPathForSha (sha1Hex text)
    · obtain ⟨rfl, rfl⟩ := h.holds_self hg hc.holds
      have htext := hc.text
      rw [h.stored] at htext
      exact absurd hpre htext
    · exact hall g c hg ⟨(h.holds_iff hg).1 hc.holds, hc.matched, hc.text⟩

/-- Behind a store of a text, a prompt that extends it finds the longest stored prefix, exactly if
the store did not keep a file with too few tokens for the lookup, or another file holds a longer
prefix. -/
theorem storeThenLookup_iff (hvalid : ValidDir dir)
    (hstore : storeLivePrefixText kc engine session m now dir req = some dir')
    (hpre : req.text engine <+: prompt) (hctx : session.ctxSize ≤ ctxSize)
    (hquant : kc.rejectDifferentQuant = true → quantBits = engine.quantBits) :
    StoreThenLookup kc prompt quantBits ctxSize dir' (req.text engine) ↔
      (¬ KeptFew kc dir (req.text engine) engine.quantBits session.ctxSize ∧
        CollidesUpTo kc prompt quantBits ctxSize dir (req.text engine) (req.text engine).length) ∨
      LongerStored kc prompt quantBits ctxSize dir (req.text engine) := by
  obtain ⟨content, e, hstored, hectx, hequant, hfew⟩ := store_spec hstore
  have hfinds : StoreThenLookup kc prompt quantBits ctxSize dir' (req.text engine) ↔
      FindsLongest kc prompt quantBits ctxSize (req.text engine).length dir' := by
    constructor
    · exact fun h => h.found
    · intro h
      refine ⟨h, ?_, fun hd n rest hr hn => kvReadHeader_fill hr hn rest⟩
      intro file hfile
      obtain ⟨⟨content, textBytes, rest, hcontent, hread, htext, -, -⟩, hprefix⟩ :=
        checkedFile_prefix hfile
      rw [htext] at hprefix
      exact ⟨content, textBytes, rest, hcontent, hread, hprefix⟩
  rw [hfinds, findsLongest_iff (hstored.valid hvalid)]
  constructor
  · rintro ⟨f, c, hc, hleast, hcollides⟩
    rw [hstored.collides_iff hpre] at hcollides
    by_cases hf : f.1 = kvPathForSha (sha1Hex (req.text engine))
    · obtain ⟨-, rfl⟩ := hstored.holds_self hf hc.holds
      rw [hstored.length] at hcollides
      exact Or.inl ⟨hfew.1 hc.admits.tokens, hcollides⟩
    · exact Or.inr ⟨f, c, hf, ⟨(hstored.holds_iff hf).1 hc.holds, hc.admits, hc.text⟩, hleast,
        hcollides⟩
  · rintro (⟨hkept, hcollides⟩ | ⟨f, c, hf, hc, hleast, hcollides⟩)
    · refine ⟨_, e, ⟨hstored.file, ⟨?_, hfew.2 hkept, hectx.trans hctx, ?_⟩, ?_⟩, ?_, ?_⟩
      · rw [hstored.length]
        exact hpre.length_le
      · intro hreject
        rw [hequant hreject, hquant hreject]
      · rw [hstored.stored]
        exact hpre
      · exact hstored.length.ge
      · rw [hstored.collides_iff hpre, hstored.length]
        exact hcollides
    · refine ⟨f, c, ⟨(hstored.holds_iff hf).2 hc.holds, hc.admits, hc.text⟩, hleast, ?_⟩
      rw [hstored.collides_iff hpre]
      exact hcollides

end Lookup

section Sample

def sampleCache : KvDiskCache := ⟨true, 0, false, 2, 0, Nat.two_pos⟩

def sampleEngine : KvEngine := ⟨2, fun _ => lit "a"⟩

theorem sampleLive_lt : ∀ live ∈ some [0, 1], live.length < 2 ^ 31 := by decide

theorem sampleCtx_lt : 4096 < 2 ^ 31 := by norm_num

/-- Two tokens, of a turn with hidden reasoning. -/
def sampleSession : KvSession := ⟨some [0, 1], 4096, [1], sampleCtx_lt, sampleLive_lt⟩

theorem sampleStore_le : (2 : ℤ) ≤ ([0, 1] : List ℕ).length := by decide

/-- They are stored under the text that the client sees. -/
def sampleRequest : StoreRequest :=
  ⟨[0, 1], 2, lit "evict", lit "ab", kvExtThinkingVisible, sampleStore_le⟩

/-- A file of the same text with one token, from a run in which one was enough. -/
def sampleHeader : KvHeader := ⟨2, 1, 0, 1, 0, 4096, 0, 0, 1⟩

def sampleFew : Bytes × Bytes :=
  (kvPathForSha (sha1Hex (lit "ab")),
    kvFillHeader sampleHeader ++ (lePut32 2 ++ (lit "ab" ++ [1])))

def sampleFewDir : CacheDir := ⟨[sampleFew], List.nodup_singleton _⟩

theorem sampleFew_entry : entryOf sampleFew = some ⟨sha1Hex (lit "ab"),
    kvPathForSha (sha1Hex (lit "ab")), sampleHeader, 2, 55⟩ := by decide +kernel

theorem sampleFewDir_valid : ValidDir sampleFewDir := by
  rintro f e ⟨hmem, hentry⟩
  rw [List.mem_singleton.1 hmem] at hentry ⊢
  rw [sampleFew_entry] at hentry
  obtain rfl := Option.some.inj hentry
  have htext : storedText sampleFew ⟨sha1Hex (lit "ab"), kvPathForSha (sha1Hex (lit "ab")),
      sampleHeader, 2, 55⟩ = lit "ab" := by decide +kernel
  rw [htext]
  rfl

/-- The store reports success, but what it kept is not found. -/
theorem keptFew_missed : ∃ dir', ValidDir sampleFewDir ∧
    storeLivePrefixText sampleCache sampleEngine sampleSession (ToolMemory.empty 0 0) 0
      sampleFewDir sampleRequest = some dir' ∧
    sampleRequest.text sampleEngine <+: lit "abc" ∧
    ¬ StoreThenLookup sampleCache (lit "abc") 2 4096 dir' (sampleRequest.text sampleEngine) := by
  have hstore : (storeLivePrefixText sampleCache sampleEngine sampleSession (ToolMemory.empty 0 0) 0
      sampleFewDir sampleRequest).map CacheDir.files = some sampleFewDir.files := by decide +kernel
  obtain ⟨dir', hdir, hfiles⟩ := Option.map_eq_some_iff.1 hstore
  obtain rfl : dir' = sampleFewDir := by
    cases dir'
    cases hfiles
    rfl
  refine ⟨sampleFewDir, sampleFewDir_valid, hdir, by decide +kernel, ?_⟩
  rintro ⟨⟨f, e, hfind, -⟩, -, -⟩
  have hnone : findTextPrefix sampleCache (lit "abc") 2 4096 sampleFewDir = none := by
    decide +kernel
  rw [hnone] at hfind
  cases hfind

/-- In an empty directory the text is stored and found. -/
theorem sampleStore_found : ∃ dir',
    storeLivePrefixText sampleCache sampleEngine sampleSession (ToolMemory.empty 0 0) 0
      CacheDir.empty sampleRequest = some dir' ∧
    StoreThenLookup sampleCache (lit "abc") 2 4096 dir' (sampleRequest.text sampleEngine) := by
  have hsome : (storeLivePrefixText sampleCache sampleEngine sampleSession (ToolMemory.empty 0 0) 0
      CacheDir.empty sampleRequest).isSome = true := by decide +kernel
  obtain ⟨dir', hdir⟩ := Option.isSome_iff_exists.1 hsome
  have hempty : ∀ f e, ¬ Holds CacheDir.empty f e := fun f e h => List.not_mem_nil h.mem
  have hpre : sampleRequest.text sampleEngine <+: lit "abc" := by decide +kernel
  have hquant : sampleCache.rejectDifferentQuant = true → (2 : UInt8) = sampleEngine.quantBits := by
    decide
  refine ⟨dir', hdir, (storeThenLookup_iff (fun f e h => absurd h (hempty f e)) hdir hpre le_rfl
    hquant).2 (Or.inl ⟨?_, ?_⟩)⟩
  · rintro ⟨content, e, hkept, -⟩
    exact hempty _ _ hkept.stored.1.1
  · intro g c _ hc
    exact absurd hc.holds (hempty g c)

end Sample

end Ds4.KvCache
