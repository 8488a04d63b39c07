import Ds4.Bytes.LittleEndian
import Ds4.Bytes.Sha1
import Mathlib.Data.List.GetD

/-! The files of the disk cache: their names, their headers and what is read of them. -/
namespace Ds4.KvCache

def isHexDigit (c : UInt8) : Bool :=
  isDigit c || (decide (97 ≤ c) && decide (c ≤ 102)) || (decide (65 ≤ c) && decide (c ≤ 70))

def toLower (c : UInt8) : UInt8 := if 65 ≤ c ∧ c ≤ 90 then c + 32 else c

/-- `sha_hex_name`: the hash in the name of a cache file. -/
def shaHexName (name : Bytes) : Option Bytes :=
  if name.length ≠ 43 ∨ name.drop 40 ≠ lit ".kv" then none
  else if (name.take 40).all isHexDigit then some ((name.take 40).map toLower)
  else none

/-- `kv_path_for_sha`, in the directory of the cache. -/
def kvPathForSha (sha : Bytes) : Bytes := sha ++ lit ".kv"

/-- `KV_REASON_SHUTDOWN`, the last of the reasons. -/
def kvReasonShutdown : UInt8 := 4

/-- The extension flags: a tool map follows the payload; the text is a visible transcript of the
payload's tokens. -/
def kvExtToolMap : UInt8 := 1
def kvExtThinkingVisible : UInt8 := 4

/-- The fields of the fixed header. -/
structure KvHeader where
  quantBits : UInt8
  reason : UInt8
  extFlags : UInt8
  tokens : ℕ
  hits : ℕ
  ctxSize : ℕ
  createdAt : ℕ
  lastUsed : ℕ
  payloadBytes : ℕ
  deriving DecidableEq

/-- `KV_CACHE_FIXED_HEADER`. -/
def kvFixedHeader : ℕ := 48

/-- `K`, `V`, `C` and the version. -/
def kvMagic : Bytes := [75, 86, 67, 1]

/-- `kv_fill_header`. -/
def kvFillHeader (h : KvHeader) : Bytes :=
  kvMagic ++ [h.quantBits, h.reason, h.extFlags, 0] ++ lePut32 h.tokens ++ lePut32 h.hits ++
    lePut32 h.ctxSize ++ [0, 0, 0, 0] ++ lePut64 h.createdAt ++ lePut64 h.lastUsed ++
    lePut64 h.payloadBytes

/-- The bytes `[at, at + n)` of a header. -/
def field (s : Bytes) (start n : ℕ) : Bytes := (s.drop start).take n

/-- `kv_read_header`: the header, the length of the text, and what follows them. -/
def kvReadHeader (s : Bytes) : Option (KvHeader × ℕ × Bytes) :=
  if s.length < kvFixedHeader then none
  else if s.take 4 ≠ kvMagic then none
  else
    let reason := s.getD 5 0
    let h : KvHeader :=
      { quantBits := s.getD 4 0
        reason := if reason ≤ kvReasonShutdown then reason else 0
        extFlags := s.getD 6 0
        tokens := leGet (field s 8 4)
        hits := leGet (field s 12 4)
        ctxSize := leGet (field s 16 4)
        createdAt := leGet (field s 24 8)
        lastUsed := leGet (field s 32 8)
        payloadBytes := leGet (field s 40 8) }
    if s.length < kvFixedHeader + 4 then none
    else if h.tokens ≠ 0 ∧ (h.quantBits = 2 ∨ h.quantBits = 4) then
      some (h, leGet (field s 48 4), s.drop 52)
    else none

/-- `kv_entry`: the file with what its header says. -/
structure KvEntry where
  sha : Bytes
  path : Bytes
  header : KvHeader
  textBytes : ℕ
  fileSize : ℕ
  deriving DecidableEq

/-- `kv_read_entry_file`. -/
def kvReadEntryFile (path sha content : Bytes) : Option KvEntry :=
  if content.length < kvFixedHeader + 4 then none
  else
    match kvReadHeader content with
    | none => none
    | some (h, textBytes, _) =>
        let fixed := kvFixedHeader + 4
        if 2 ^ 64 - 1 - fixed < textBytes ∨
          2 ^ 64 - 1 - fixed - textBytes < h.payloadBytes then none
        else if content.length < fixed + textBytes + h.payloadBytes then none
        else some ⟨sha, path, h, textBytes, content.length⟩

/-- The files of the cache directory in the order they are listed, with their contents. -/
structure CacheDir where
  files : List (Bytes × Bytes)
  nodup : (files.map Prod.fst).Nodup

namespace CacheDir
variable (dir : CacheDir)

def empty : CacheDir := ⟨[], List.nodup_nil⟩

def content (name : Bytes) : Option Bytes := (dir.files.find? fun f => f.1 = name).map Prod.snd

theorem erase_nodup (name : Bytes) :
    ((dir.files.filter fun f => f.1 ≠ name).map Prod.fst).Nodup :=
  dir.nodup.sublist (List.filter_sublist.map _)

/-- A file is removed. -/
def unlink (name : Bytes) : CacheDir := ⟨dir.files.filter fun f => f.1 ≠ name, dir.erase_nodup name⟩

theorem put_nodup (name content : Bytes) :
    (((dir.files.filter fun f => f.1 ≠ name) ++ [(name, content)]).map Prod.fst).Nodup := by
  rw [List.map_append, List.nodup_append]
  refine ⟨dir.erase_nodup name, List.nodup_singleton _, ?_⟩
  intro a ha b hb
  obtain ⟨f, hf, rfl⟩ := List.mem_map.1 ha
  rw [List.map_singleton, List.mem_singleton] at hb
  rw [hb]
  exact of_decide_eq_true (List.mem_filter.1 hf).2

/-- A file is written under a name, over the one that had it. -/
def put (name content : Bytes) : CacheDir :=
  ⟨(dir.files.filter fun f => f.1 ≠ name) ++ [(name, content)], dir.put_nodup name content⟩

theorem content_some {name content : Bytes} :
    dir.content name = some content ↔ (name, content) ∈ dir.files := by
  unfold CacheDir.content
  rw [Option.map_eq_some_iff]
  constructor
  · rintro ⟨f, hf, rfl⟩
    have hname : f.1 = name := by simpa using List.find?_some hf
    rw [← hname]
    exact List.mem_of_find?_eq_some hf
  · intro hmem
    cases hfind : dir.files.find? fun f => f.1 = name with
    | none =>
      have hno := List.find?_eq_none.1 hfind _ hmem
      exact absurd (decide_eq_true rfl) hno
    | some f =>
      have hname : f.1 = name := by simpa using List.find?_some hfind
      have heq := List.inj_on_of_nodup_map dir.nodup (List.mem_of_find?_eq_some hfind) hmem hname
      exact ⟨f, rfl, congrArg Prod.snd heq⟩

theorem mem_unlink {name : Bytes} {f : Bytes × Bytes} :
    f ∈ (dir.unlink name).files ↔ f ∈ dir.files ∧ f.1 ≠ name := by
  unfold unlink
  rw [List.mem_filter, decide_eq_true_iff]

theorem mem_put {name content : Bytes} {f : Bytes × Bytes} :
    f ∈ (dir.put name content).files ↔ f ∈ dir.files ∧ f.1 ≠ name ∨ f = (name, content) := by
  unfold put
  rw [List.mem_append, List.mem_filter, decide_eq_true_iff, List.mem_singleton]

end CacheDir

/-- The entry of a file, if its name and its contents are those of a cache file. -/
def entryOf (f : Bytes × Bytes) : Option KvEntry :=
  (shaHexName f.1).bind fun sha => kvReadEntryFile f.1 sha f.2

/-- `kv_cache_refresh`. -/
def refresh (dir : CacheDir) : List KvEntry := dir.files.filterMap entryOf

section Names
variable {s : Bytes}

theorem hexDigits_spec : ∀ c ∈ hexDigits, isHexDigit c = true ∧ toLower c = c := by
  decide +kernel

/-- The hash of a text is in the name of its file. -/
theorem shaHexName_path (s : Bytes) : shaHexName (kvPathForSha (sha1Hex s)) = some (sha1Hex s) := by
  have hlen := length_sha1Hex s
  have hext : (lit ".kv").length = 3 := rfl
  have hmem : ∀ c ∈ sha1Hex s, isHexDigit c = true ∧ toLower c = c :=
    fun c hc => hexDigits_spec c (hexText_mem _ c hc)
  have htake : (kvPathForSha (sha1Hex s)).take 40 = sha1Hex s := List.take_left' hlen
  have hdrop : (kvPathForSha (sha1Hex s)).drop 40 = lit ".kv" := List.drop_left' hlen
  unfold shaHexName
  rw [htake, hdrop]
  rw [if_neg, if_pos]
  · have hmap : (sha1Hex s).map toLower = (sha1Hex s).map id :=
      List.map_congr_left fun c hc => (hmem c hc).2
    rw [hmap, List.map_id]
  · rw [List.all_eq_true]
    exact fun c hc => (hmem c hc).1
  · unfold kvPathForSha
    rw [List.length_append, hlen, hext]
    simp

end Names

section Header
variable {h : KvHeader} {textBytes : ℕ} {rest : Bytes}

/-- The fields are in the range of the header, and of what the server writes. -/
structure KvHeader.InRange (h : KvHeader) : Prop where
  quant : h.quantBits = 2 ∨ h.quantBits = 4
  reason : h.reason ≤ kvReasonShutdown
  tokens : h.tokens ≠ 0 ∧ h.tokens < 2 ^ 32
  hits : h.hits < 2 ^ 32
  ctxSize : h.ctxSize < 2 ^ 32
  createdAt : h.createdAt < 2 ^ 64
  lastUsed : h.lastUsed < 2 ^ 64
  payloadBytes : h.payloadBytes < 2 ^ 64

theorem length_kvFillHeader (h : KvHeader) : (kvFillHeader h).length = kvFixedHeader := by
  unfold kvFillHeader lePut32 lePut64
  simp only [List.length_append, length_lePut]
  rfl

/-- The fields of a written header, one behind the other. -/
theorem fields_kvFillHeader (h : KvHeader) (s : Bytes) :
    (kvFillHeader h ++ s).take 4 = kvMagic ∧
      ((kvFillHeader h ++ s).getD 4 0 = h.quantBits ∧ (kvFillHeader h ++ s).getD 5 0 = h.reason ∧
        (kvFillHeader h ++ s).getD 6 0 = h.extFlags) ∧
      (field (kvFillHeader h ++ s) 8 4 = lePut32 h.tokens ∧
        field (kvFillHeader h ++ s) 12 4 = lePut32 h.hits ∧
        field (kvFillHeader h ++ s) 16 4 = lePut32 h.ctxSize) ∧
      field (kvFillHeader h ++ s) 24 8 = lePut64 h.createdAt ∧
      field (kvFillHeader h ++ s) 32 8 = lePut64 h.lastUsed ∧
      field (kvFillHeader h ++ s) 40 8 = lePut64 h.payloadBytes := by
  refine ⟨rfl, ⟨rfl, rfl, rfl⟩, ⟨rfl, rfl, rfl⟩, rfl, rfl, rfl⟩

/-- A written header with four bytes for the length of the text is read back. -/
theorem kvReadHeader_written (hr : h.InRange) {len : Bytes} (hlen : len.length = 4) (rest : Bytes) :
    kvReadHeader (kvFillHeader h ++ (len ++ rest)) = some (h, leGet len, rest) := by
  obtain ⟨hmagic, ⟨hquant, hreason, hext⟩, ⟨htokens, hhits, hctx⟩, hcreated, hused, hpayload⟩ :=
    fields_kvFillHeader h (len ++ rest)
  have hheader : (kvFillHeader h).length = 48 := length_kvFillHeader h
  have hfixed : kvFixedHeader = 48 := rfl
  have htext : field (kvFillHeader h ++ (len ++ rest)) 48 4 = len := by
    unfold field
    rw [List.drop_left' hheader]
    exact List.take_left' hlen
  have hrest : (kvFillHeader h ++ (len ++ rest)).drop 52 = rest := by
    rw [← List.append_assoc]
    apply List.drop_left'
    rw [List.length_append, hheader, hlen]
  have htotal : (kvFillHeader h ++ (len ++ rest)).length = 52 + rest.length := by
    rw [List.length_append, List.length_append, hheader, hlen]
    omega
  unfold kvReadHeader
  rw [if_neg (by omega), if_neg (not_not.2 hmagic)]
  simp only
  rw [hquant, hreason, hext, htokens, hhits, hctx, hcreated, hused, hpayload, htext, hrest,
    leGet_lePut32 hr.tokens.2, leGet_lePut32 hr.hits, leGet_lePut32 hr.ctxSize,
    leGet_lePut64 hr.createdAt, leGet_lePut64 hr.lastUsed, leGet_lePut64 hr.payloadBytes,
    if_pos hr.reason, if_neg (by omega), if_pos ⟨hr.tokens.1, hr.quant⟩]

/-- A header is read back field for field, with the length of the text behind it. -/
theorem kvReadHeader_fill (hr : h.InRange) (ht : textBytes < 2 ^ 32) (rest : Bytes) :
    kvReadHeader (kvFillHeader h ++ (lePut32 textBytes ++ rest)) = some (h, textBytes, rest) := by
  rw [kvReadHeader_written hr (show (lePut32 textBytes).length = 4 from length_lePut 4 _),
    leGet_lePut32 ht]

theorem field_length_le (s : Bytes) (start n : ℕ) : (field s start n).length ≤ n := by
  unfold field
  exact (List.length_take_le _ _)

theorem leGet_field32 (s : Bytes) (start : ℕ) : leGet (field s start 4) < 2 ^ 32 :=
  leGet_lt (field_length_le s start 4)

theorem leGet_field64 (s : Bytes) (start : ℕ) : leGet (field s start 8) < 2 ^ 64 :=
  leGet_lt (field_length_le s start 8)

/-- What a header that is read says, and where the text behind it starts. -/
theorem kvReadHeader_some {s : Bytes} {r : KvHeader × ℕ × Bytes} (hread : kvReadHeader s = some r) :
    (52 ≤ s.length ∧ r.2.2 = s.drop 52 ∧ r.2.1 = leGet (field s 48 4)) ∧ r.1.InRange := by
  unfold kvReadHeader at hread
  simp only at hread
  split_ifs at hread with hshort hmagic hlen hvalid hreason
  all_goals
    obtain rfl := Option.some.inj hread
    have hfixed : kvFixedHeader = 48 := rfl
    refine ⟨⟨by omega, rfl, rfl⟩, hvalid.2, ?_, ⟨hvalid.1, leGet_field32 s 8⟩, leGet_field32 s 12,
      leGet_field32 s 16, leGet_field64 s 24, leGet_field64 s 32, leGet_field64 s 40⟩
  · exact hreason
  · exact UInt8.zero_le

/-- Only the first bytes are read for the header and the length of the text. -/
theorem kvReadHeader_take {s s' : Bytes} {r : KvHeader × ℕ × Bytes}
    (hread : kvReadHeader s = some r) (hpre : s.take 52 <+: s') :
    kvReadHeader s' = some (r.1, r.2.1, s'.drop 52) := by
  obtain ⟨⟨hlen, hrest, htext⟩, hr⟩ := kvReadHeader_some hread
  obtain ⟨t, rfl⟩ := hpre
  have htake : (s.take 52).length = 52 := List.length_take_of_le hlen
  have hfield : ∀ start n, start + n ≤ 52 → field (s.take 52 ++ t) start n = field s start n := by
    intro start n hle
    unfold field
    rw [List.drop_append_of_le_length (by omega), List.take_append_of_le_length, List.drop_take,
      List.take_take]
    · congr 1
      omega
    · rw [List.length_drop]
      omega
  have hget : ∀ i, i < 52 → (s.take 52 ++ t).getD i 0 = s.getD i 0 := by
    intro i hi
    rw [List.getD_append _ _ _ _ (by omega), List.getD_eq_getElem?_getD, List.getD_eq_getElem?_getD,
      List.getElem?_take_of_lt hi]
  have hmagic : (s.take 52 ++ t).take 4 = s.take 4 := hfield 0 4 (by omega)
  have hfixed : kvFixedHeader = 48 := rfl
  have hlen' : 52 ≤ (s.take 52 ++ t).length := by
    rw [List.length_append, htake]
    omega
  have hd : ∀ x : KvHeader × ℕ × Bytes, kvReadHeader s = some x →
      kvReadHeader (s.take 52 ++ t) = some (x.1, x.2.1, (s.take 52 ++ t).drop 52) := by
    intro x hx
    unfold kvReadHeader at hx ⊢
    rw [if_neg (by omega)] at hx ⊢
    rw [hmagic]
    simp only at hx ⊢
    rw [hget 4 (by omega), hget 5 (by omega), hget 6 (by omega), hfield 8 4 (by omega),
      hfield 12 4 (by omega), hfield 16 4 (by omega), hfield 24 8 (by omega),
      hfield 32 8 (by omega), hfield 40 8 (by omega), hfield 48 4 (by omega)]
    rw [if_neg (show ¬ (s.take 52 ++ t).length < kvFixedHeader + 4 by omega)]
    rw [if_neg (show ¬ s.length < kvFixedHeader + 4 by omega)] at hx
    split_ifs at hx ⊢
    all_goals
      obtain rfl := Option.some.inj hx
      rfl
  exact hd r hread

end Header

end Ds4.KvCache
