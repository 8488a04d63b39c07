import Ds4.KvCache.Lookup

/-! A directory of valid cache files: what a lookup finds in it. -/
namespace Ds4.KvCache

/-- The text of a file, as long as its header says. -/
def storedText (f : Bytes × Bytes) (e : KvEntry) : Bytes := (f.2.drop 52).take e.textBytes

/-- A file of the directory that is read as an entry. -/
structure Holds (dir : CacheDir) (f : Bytes × Bytes) (e : KvEntry) : Prop where
  mem : f ∈ dir.files
  entry : entryOf f = some e

/-- Every file that is read as an entry has the name of its text. -/
def ValidDir (dir : CacheDir) : Prop :=
  ∀ f e, Holds dir f e → f.1 = kvPathForSha (sha1Hex (storedText f e))

section Entries
variable {dir : CacheDir} {f : Bytes × Bytes} {e : KvEntry}

theorem mem_refresh : e ∈ refresh dir ↔ ∃ f, Holds dir f e := by
  unfold refresh
  rw [List.mem_filterMap]
  constructor
  · rintro ⟨f, hmem, hentry⟩
    exact ⟨f, hmem, hentry⟩
  · rintro ⟨f, hmem, hentry⟩
    exact ⟨f, hmem, hentry⟩

theorem kvReadEntryFile_some {path sha content : Bytes} :
    kvReadEntryFile path sha content = some e ↔ ∃ rest, kvReadHeader content =
      some (e.header, e.textBytes, rest) ∧
      52 + e.textBytes + e.header.payloadBytes ≤ 2 ^ 64 - 1 ∧
      52 + e.textBytes + e.header.payloadBytes ≤ content.length ∧
      e.sha = sha ∧ e.path = path ∧ e.fileSize = content.length := by
  have hfixed : kvFixedHeader = 48 := rfl
  unfold kvReadEntryFile
  constructor
  · intro h
    split_ifs at h with hshort
    cases hread : kvReadHeader content with
    | none =>
      rw [hread] at h
      cases h
    | some r =>
      obtain ⟨hd, n, rest⟩ := r
      rw [hread] at h
      simp only at h
      split_ifs at h with hover hlen
      obtain rfl := Option.some.inj h
      exact ⟨rest, rfl, by simp only; omega, by simp only; omega, rfl, rfl, rfl⟩
  · rintro ⟨rest, hread, hover, hlen, hsha, hpath, hsize⟩
    rw [if_neg (by omega), hread]
    simp only
    rw [if_neg (by omega), if_neg (by omega)]
    congr 1
    rw [← hsha, ← hpath, ← hsize]

/-- What the entry of a file is. -/
theorem entryOf_some : entryOf f = some e ↔ shaHexName f.1 = some e.sha ∧
    ∃ rest, kvReadHeader f.2 = some (e.header, e.textBytes, rest) ∧
      52 + e.textBytes + e.header.payloadBytes ≤ 2 ^ 64 - 1 ∧
      52 + e.textBytes + e.header.payloadBytes ≤ f.2.length ∧
      e.path = f.1 ∧ e.fileSize = f.2.length := by
  unfold entryOf
  rw [Option.bind_eq_some_iff]
  constructor
  · rintro ⟨sha, hname, h⟩
    obtain ⟨rest, hread, hover, hlen, hsha, hpath, hsize⟩ := kvReadEntryFile_some.1 h
    rw [hsha]
    exact ⟨hname, rest, hread, hover, hlen, hpath, hsize⟩
  · rintro ⟨hname, rest, hread, hover, hlen, hpath, hsize⟩
    exact ⟨e.sha, hname, kvReadEntryFile_some.2 ⟨rest, hread, hover, hlen, rfl, hpath, hsize⟩⟩

theorem length_storedText (h : entryOf f = some e) : (storedText f e).length = e.textBytes := by
  obtain ⟨-, rest, -, -, hlen, -, -⟩ := entryOf_some.1 h
  unfold storedText
  rw [List.length_take, List.length_drop]
  omega

/-- In a valid directory the hash in an entry is that of its text. -/
theorem ValidDir.sha (hvalid : ValidDir dir) (h : Holds dir f e) :
    e.sha = sha1Hex (storedText f e) := by
  have hname := (entryOf_some.1 h.entry).1
  rw [hvalid f e h, shaHexName_path] at hname
  exact (Option.some.inj hname).symm

theorem Holds.content_unique (h : Holds dir f e) {g : Bytes × Bytes} {e' : KvEntry}
    (h' : Holds dir g e') (hname : f.1 = g.1) : f = g ∧ e = e' := by
  have hfg : f = g := List.inj_on_of_nodup_map dir.nodup h.mem h'.mem hname
  subst hfg
  exact ⟨rfl, Option.some.inj (h.entry.symm.trans h'.entry)⟩

end Entries

section Longest
variable (kc : KvDiskCache) (prompt : Bytes) (quantBits : UInt8) (ctxSize : ℕ)

/-- A stored text that is a prefix of the prompt, with an entry the lookup may use. -/
structure StoredPrefix (dir : CacheDir) (f : Bytes × Bytes) (e : KvEntry) : Prop where
  holds : Holds dir f e
  admits : Admits kc prompt quantBits ctxSize e
  text : storedText f e <+: prompt

/-- A stored text that only has the hash of the prompt's prefix of its length. -/
structure Collides (dir : CacheDir) (f : Bytes × Bytes) (e : KvEntry) : Prop where
  holds : Holds dir f e
  matched : Matches kc prompt quantBits ctxSize e
  text : ¬ storedText f e <+: prompt

/-- The lookup finds a stored prefix of at least `least` bytes, and none is longer. -/
def FindsLongest (least : ℕ) (dir : CacheDir) : Prop :=
  ∃ f e, findTextPrefix kc prompt quantBits ctxSize dir = some e ∧
    StoredPrefix kc prompt quantBits ctxSize dir f e ∧ least ≤ e.textBytes ∧
    ∀ g c, StoredPrefix kc prompt quantBits ctxSize dir g c → c.textBytes ≤ e.textBytes

end Longest

section Find
variable {kc : KvDiskCache} {prompt : Bytes} {quantBits : UInt8} {ctxSize : ℕ} {dir : CacheDir}
  {f g : Bytes × Bytes} {e c : KvEntry}

/-- A stored prefix has the hash the lookup compares. -/
theorem StoredPrefix.matched (hvalid : ValidDir dir)
    (h : StoredPrefix kc prompt quantBits ctxSize dir f e) :
    Matches kc prompt quantBits ctxSize e := by
  refine ⟨h.admits, ?_⟩
  have htake := List.prefix_iff_eq_take.1 h.text
  rw [length_storedText h.holds.entry] at htake
  rw [hvalid.sha h.holds, ← htake]

/-- Two entries of one length that both match are one. -/
theorem matched_unique (hvalid : ValidDir dir) (hf : Holds dir f e) (hg : Holds dir g c)
    (he : Matches kc prompt quantBits ctxSize e) (hc : Matches kc prompt quantBits ctxSize c)
    (hlen : e.textBytes = c.textBytes) : f = g := by
  refine (hf.content_unique hg ?_).1
  rw [hvalid f e hf, hvalid g c hg, ← hvalid.sha hf, ← hvalid.sha hg, ← he.2, ← hc.2, hlen]

/-- In a valid directory the lookup finds the longest stored prefix, unless a longer text has the
hash of a prefix of the prompt without being one. -/
theorem findsLongest_iff (hvalid : ValidDir dir) (least : ℕ) :
    FindsLongest kc prompt quantBits ctxSize least dir ↔
      ∃ f e, StoredPrefix kc prompt quantBits ctxSize dir f e ∧ least ≤ e.textBytes ∧
        ∀ g c, Collides kc prompt quantBits ctxSize dir g c → c.textBytes ≤ e.textBytes := by
  have hbest := findTextPrefix_best kc prompt quantBits ctxSize dir
  constructor
  · rintro ⟨f, e, hfind, hstored, hleast, -⟩
    refine ⟨f, e, hstored, hleast, ?_⟩
    intro g c hc
    rw [hfind] at hbest
    exact hbest.2 c (mem_refresh.2 ⟨g, hc.holds⟩) hc.matched
  · rintro ⟨f, e, hstored, hleast, hcollides⟩
    have hmatch := hstored.matched hvalid
    have hmem : e ∈ refresh dir := mem_refresh.2 ⟨f, hstored.holds⟩
    cases hfind : findTextPrefix kc prompt quantBits ctxSize dir with
    | none =>
      rw [hfind] at hbest
      exact absurd hmatch (hbest e hmem)
    | some b =>
      rw [hfind] at hbest
      obtain ⟨⟨hbmem, hbmatch⟩, hball⟩ := hbest
      obtain ⟨g, hg⟩ := mem_refresh.1 hbmem
      have hle : e.textBytes ≤ b.textBytes := hball e hmem hmatch
      have hprefix : storedText g b <+: prompt := by
        by_contra hno
        have hlong := hcollides g b ⟨hg, hbmatch, hno⟩
        -- of equal length, the two files would be one
        have heq := matched_unique hvalid hstored.holds hg hmatch hbmatch (by omega)
        subst heq
        obtain rfl := Option.some.inj (hstored.holds.entry.symm.trans hg.entry)
        exact hno hstored.text
      refine ⟨g, b, hfind, ⟨hg, hbmatch.1, hprefix⟩, hleast.trans hle, ?_⟩
      intro k c hc
      exact hball c (mem_refresh.2 ⟨k, hc.holds⟩) (hc.matched hvalid)

end Find

end Ds4.KvCache
