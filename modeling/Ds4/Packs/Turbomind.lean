import Ds4.Packs.Index

/-! The TurboMind pack index: the expert weights of the sidecar files and their extents. -/
namespace Ds4.Packs

def tmPackCols : ℕ := 25

def tmPackHeader : Bytes :=
  lit "semantic_tensor_id\t" ++ lit "source_name\t" ++ lit "source_dtype\t" ++
  lit "source_shape\t" ++ lit "runtime_layout\t" ++ lit "owning_gpu\t" ++ lit "layer_id\t" ++
  lit "kernel_family\t" ++ lit "n\tk\t" ++ lit "experts_packed\t" ++ lit "experts_total\t" ++
  lit "weight_bytes_per_expert\t" ++ lit "scale_bytes_per_expert\t" ++ lit "k_pack\t" ++
  lit "weight_stride\t" ++ lit "scale_stride\t" ++ lit "sidecar_file\t" ++
  lit "weight_offset\t" ++ lit "scale_offset\t" ++ lit "source_shard_file\t" ++
  lit "source_shard_offset\t" ++ lit "source_byte_length\t" ++ lit "source_checksum\t" ++
  lit "tm_abi_version"

/-! Products and sums of 64 bits. -/
def mul64 (a b : ℕ) : ℕ := a * b % 2 ^ 64

def add64 (a b : ℕ) : ℕ := (a + b) % 2 ^ 64

/-- The fields of a row that are numbers. -/
structure TmNumbers where
  owningGpu : ℤ
  layerId : ℤ
  n : ℕ
  k : ℕ
  expertsPacked : ℕ
  expertsTotal : ℕ
  weightBytesPerExpert : ℕ
  scaleBytesPerExpert : ℕ
  kPack : ℤ
  weightStride : ℤ
  scaleStride : ℤ
  weightOffset : ℕ
  scaleOffset : ℕ
  sourceShardOffset : ℕ
  sourceByteLength : ℕ
  tmAbiVersion : ℤ
  deriving DecidableEq

/-- `ds4_tm_pack_entry`. -/
structure TmEntry extends TmNumbers where
  semanticTensorId : Bytes
  sourceName : Bytes
  sourceDtype : Bytes
  sourceShape : Bytes
  runtimeLayout : Bytes
  kernelFamily : Bytes
  sidecarFile : Bytes
  sourceShardFile : Bytes
  sourceChecksum : Bytes
  deriving DecidableEq

namespace TmEntry
variable (e : TmEntry)

/-! The bytes of the packed experts and the ends of their ranges, as they are. -/
def weightBytes : ℕ := e.expertsPacked * e.weightBytesPerExpert

def scaleBytes : ℕ := e.expertsPacked * e.scaleBytesPerExpert

def weightEnd : ℕ := e.weightOffset + e.weightBytes

def scaleEnd : ℕ := e.scaleOffset + e.scaleBytes

/-! The ends as the code computes them. -/
def weightEnd64 : ℕ :=
  add64 e.weightOffset (mul64 e.expertsPacked e.weightBytesPerExpert)

def scaleEnd64 : ℕ := add64 e.scaleOffset (mul64 e.expertsPacked e.scaleBytesPerExpert)

/-- The overflow check of a row. -/
def Guarded : Prop :=
  e.weightOffset ≤ maxU64 - mul64 e.expertsPacked e.weightBytesPerExpert ∧
    e.scaleOffset ≤ maxU64 - mul64 e.expertsPacked e.scaleBytesPerExpert

instance : Decidable e.Guarded := by
  unfold Guarded
  infer_instance

end TmEntry

/-- A loaded TurboMind index. -/
structure TmPack where
  entries : List TmEntry
  ids_nodup : (entries.map TmEntry.semanticTensorId).Nodup
  guarded : ∀ e ∈ entries, e.Guarded

namespace TmPack
variable {p : TmPack} {id : Bytes}

theorem none_guarded : ∀ e ∈ ([] : List TmEntry), e.Guarded := by
  intro e he
  cases he

def empty : TmPack := ⟨[], List.nodup_nil, none_guarded⟩

def findSemantic (p : TmPack) (id : Bytes) : Option ℕ :=
  p.entries.findIdx? fun e => e.semanticTensorId == id

theorem findSemantic_eq_none : p.findSemantic id = none ↔
    id ∉ p.entries.map TmEntry.semanticTensorId := by
  rw [findSemantic, List.findIdx?_eq_none_iff]
  simp

theorem guarded_append {e : TmEntry} (h : e.Guarded) : ∀ x ∈ p.entries ++ [e], x.Guarded := by
  intro x hx
  rcases List.mem_append.1 hx with hx | hx
  · exact p.guarded x hx
  · rwa [List.mem_singleton.1 hx]

/-- `tm_append`, for a checked row that is not there. -/
def append (p : TmPack) (e : TmEntry) (hid : p.findSemantic e.semanticTensorId = none)
    (hg : e.Guarded) : TmPack :=
  ⟨p.entries ++ [e], Pack.nodup_append_one p.ids_nodup (findSemantic_eq_none.1 hid),
    guarded_append hg⟩

end TmPack

def validSidecarName (name : Bytes) (owningGpu : ℤ) : Bool :=
  if name = [] then false
  else if 47 ∈ name ∨ 92 ∈ name then false
  else name == lit "gpu" ++ printDecimal owningGpu.toNat ++ lit ".turbomind" ||
    name == lit "gpu" ++ printDecimal owningGpu.toNat ++ lit ".weights"

def parseTmNumbers (f : List Bytes) : Option TmNumbers := do
  let owningGpu ← (parseI32Field (f.getD 5 [])).filter (0 ≤ ·)
  let layerId ← parseI32Field (f.getD 6 [])
  let n ← parseU32Field (f.getD 8 [])
  let k ← parseU32Field (f.getD 9 [])
  let expertsPacked ← parseU32Field (f.getD 10 [])
  let expertsTotal ← parseU32Field (f.getD 11 [])
  let weightBytesPerExpert ← parseU64Field (f.getD 12 [])
  let scaleBytesPerExpert ← parseU64Field (f.getD 13 [])
  let kPack ← parseI32Field (f.getD 14 [])
  let weightStride ← parseI32Field (f.getD 15 [])
  let scaleStride ← parseI32Field (f.getD 16 [])
  let weightOffset ← parseU64Field (f.getD 18 [])
  let scaleOffset ← parseU64Field (f.getD 19 [])
  let sourceShardOffset ← parseU64Field (f.getD 21 [])
  let sourceByteLength ← parseU64Field (f.getD 22 [])
  let tmAbiVersion ← parseI32Field (f.getD 24 [])
  some ⟨owningGpu, layerId, n, k, expertsPacked, expertsTotal, weightBytesPerExpert,
    scaleBytesPerExpert, kPack, weightStride, scaleStride, weightOffset, scaleOffset,
    sourceShardOffset, sourceByteLength, tmAbiVersion⟩

def tmEntry (f : List Bytes) (n : TmNumbers) : TmEntry :=
  { n with
    semanticTensorId := f.getD 0 []
    sourceName := f.getD 1 []
    sourceDtype := f.getD 2 []
    sourceShape := f.getD 3 []
    runtimeLayout := f.getD 4 []
    kernelFamily := f.getD 7 []
    sidecarFile := f.getD 17 []
    sourceShardFile := f.getD 20 []
    sourceChecksum := f.getD 23 [] }

/-- The checks of a row behind its numbers. -/
def admitTmRow (p : TmPack) (e : TmEntry) (lineNo : ℕ) : Except String TmPack :=
  if e.n = 0 ∨ e.k = 0 ∨ e.expertsPacked = 0 ∨ e.expertsTotal = 0 ∨
      e.weightBytesPerExpert = 0 ∨ e.scaleBytesPerExpert = 0 then
    .error (badField "zero size field" lineNo)
  else if e.expertsTotal < e.expertsPacked then
    .error (badField "experts_packed exceeds experts_total" lineNo)
  else if hg : e.Guarded then
    if hid : p.findSemantic e.semanticTensorId = none then
      if validSidecarName e.sidecarFile e.owningGpu = false then
        .error (badField ("unexpected sidecar_file '" ++ shown e.sidecarFile ++ "'") lineNo)
      else .ok (p.append e hid hg)
    else .error (badField "duplicate semantic_tensor_id" lineNo)
  else .error (badField "sidecar offset overflow" lineNo)

def parseTmRow (p : TmPack) (line : Bytes) (lineNo : ℕ) : Except String TmPack :=
  let f := splitTabs line tmPackCols
  if f.2 ≠ tmPackCols then
    .error ("TurboMind pack index line " ++ toString lineNo ++ " has " ++ toString f.2 ++
      " columns, expected " ++ toString tmPackCols)
  else
    match parseTmNumbers f.1 with
    | none => .error (badField "bad numeric field" lineNo)
    | some n => admitTmRow p (tmEntry f.1 n) lineNo

def tmPackKind : IndexKind TmPack where
  noun := "TurboMind pack index"
  header := tmPackHeader
  empty := TmPack.empty
  isEmpty := fun p => p.entries == []
  parseRow := parseTmRow

/-- `ds4_tm_pack_open`, on the content of the file at the path. -/
def tmPackOpen (path : String) (content : Bytes) : Except String TmPack :=
  tmPackKind.openIndex path content

/-- The largest end among the entries, as the two comparisons per entry find it. -/
def largestEnd : List TmEntry → ℕ → ℕ
  | [], largest => largest
  | e :: es, largest => largestEnd es (max (max largest e.weightEnd64) e.scaleEnd64)

/-- `ds4_tm_pack_sidecar_bytes`. -/
def tmPackSidecarBytes (p : TmPack) (file : Bytes) : Option ℕ :=
  let es := p.entries.filter fun e => e.sidecarFile == file
  if es = [] then none else some (largestEnd es 0)

section Ends
variable {e : TmEntry}

theorem le_largestEnd (es : List TmEntry) : ∀ n, n ≤ largestEnd es n := by
  induction es with
  | nil => exact fun n => le_refl n
  | cons e es ih =>
    intro n
    exact ((le_max_left n _).trans (le_max_left _ _)).trans (ih _)

/-- Each end is below the largest. -/
theorem end_le_largestEnd (es : List TmEntry) : ∀ n, ∀ e ∈ es,
    e.weightEnd64 ≤ largestEnd es n ∧ e.scaleEnd64 ≤ largestEnd es n := by
  induction es with
  | nil =>
    intro n e he
    cases he
  | cons e' es ih =>
    intro n e he
    rcases List.mem_cons.1 he with rfl | he
    · have h := le_largestEnd es (max (max n e.weightEnd64) e.scaleEnd64)
      constructor
      · exact ((le_max_right n _).trans (le_max_left _ _)).trans h
      · exact (le_max_right _ _).trans h
    · exact ih _ e he

/-- A guarded sum does not wrap where the product does not. -/
theorem end64_eq {offset a b : ℕ} (hg : offset ≤ maxU64 - mul64 a b) (hp : a * b < 2 ^ 64) :
    add64 offset (mul64 a b) = offset + a * b ∧ offset + a * b < 2 ^ 64 := by
  have hmul : mul64 a b = a * b := Nat.mod_eq_of_lt hp
  rw [hmul, maxU64] at hg
  have hlt : offset + a * b < 2 ^ 64 := by omega
  rw [hmul]
  exact ⟨Nat.mod_eq_of_lt hlt, hlt⟩

theorem weightEnd64_eq (hg : e.Guarded) (hp : e.weightBytes < 2 ^ 64) :
    e.weightEnd64 = e.weightEnd ∧ e.weightEnd < 2 ^ 64 := end64_eq hg.1 hp

theorem scaleEnd64_eq (hg : e.Guarded) (hp : e.scaleBytes < 2 ^ 64) :
    e.scaleEnd64 = e.scaleEnd ∧ e.scaleEnd < 2 ^ 64 := end64_eq hg.2 hp

/-- The size of a sidecar covers the entries of its file. -/
theorem sidecarBytes_covers {p : TmPack} (he : e ∈ p.entries) :
    ∃ n, tmPackSidecarBytes p e.sidecarFile = some n ∧ e.weightEnd64 ≤ n ∧ e.scaleEnd64 ≤ n := by
  have hmem : e ∈ p.entries.filter fun x => x.sidecarFile == e.sidecarFile :=
    List.mem_filter.2 ⟨he, beq_self_eq_true _⟩
  rw [tmPackSidecarBytes, if_neg (List.ne_nil_of_mem hmem)]
  exact ⟨_, rfl, end_le_largestEnd _ 0 e hmem⟩

end Ends

end Ds4.Packs
