import Ds4.Bytes.Ascii
import Ds4.Bytes.Search
import Ds4.Context.KvPlan

/-! What a tensor is run as, by its dtype, its layout and its kernel; its shape. -/
namespace Ds4.Context

def strEqCi (a b : Bytes) : Bool := a.map lower == b.map lower

def strstr (s needle : Bytes) : Bool := (Search.find needle s).isSome

/-- An empty needle is in nothing. -/
def containsCi (s needle : Bytes) : Bool := needle ≠ [] && strstr (s.map lower) (needle.map lower)

inductive SourceDtype
  | unknown
  | bf16
  | f32
  | i32
  | f8E4m3B128
  | mxfp4
  | fp4
  deriving DecidableEq

def sourceDtypeParse (s : Bytes) : SourceDtype :=
  if strEqCi s (lit "bf16") then .bf16
  else if strEqCi s (lit "f32") then .f32
  else if strEqCi s (lit "i32") then .i32
  else if strEqCi s (lit "f8_e4m3_b128") then .f8E4m3B128
  else if strEqCi s (lit "mxfp4") then .mxfp4
  else if strEqCi s (lit "fp4") then .fp4
  else .unknown

inductive TensorFamily
  | unknown
  | bf16Global
  | f32Control
  | fp8Dense
  | mxfp4Expert
  | hcControl
  | kvCache
  deriving DecidableEq

def tensorFamilyInfer (sourceDtype runtimeLayout kernelFamily : Bytes) : TensorFamily :=
  let dtype := sourceDtypeParse sourceDtype
  if containsCi kernelFamily (lit "hc_control") then .hcControl
  else if containsCi kernelFamily (lit "kv") then .kvCache
  else if dtype = .f8E4m3B128 ∨ containsCi kernelFamily (lit "fp8") ∨
      containsCi runtimeLayout (lit "f8_e4m3_b128") then .fp8Dense
  else if dtype = .mxfp4 ∨ dtype = .fp4 ∨ containsCi kernelFamily (lit "mxfp4") ∨
      containsCi runtimeLayout (lit "mxfp4") then .mxfp4Expert
  else if dtype = .bf16 then .bf16Global
  else if dtype = .f32 ∨ dtype = .i32 then .f32Control
  else .unknown

inductive ExecKind
  | f32Control
  | f16Hmma
  | lowbitKernel
  | diagnosticOnly
  deriving DecidableEq

/-- `ds4_policy`. -/
structure Policy where
  sourceDtype : SourceDtype
  family : TensorFamily
  execKind : ExecKind
  conversionStub : Option String
  forbiddenClaim : String
  deriving DecidableEq

/-- No execution mixes control tensors with matrix kernels. -/
def namesMatmul (runtimeLayout kernelFamily : Bytes) : Bool :=
  containsCi kernelFamily (lit "gemm") || containsCi kernelFamily (lit "matmul") ||
    containsCi runtimeLayout (lit "gemm") || containsCi runtimeLayout (lit "matmul")

/-- `ds4_classify_or_die`, where it finds an execution. -/
def policyOf (sourceDtype runtimeLayout kernelFamily : Bytes) : Option Policy :=
  let dtype := sourceDtypeParse sourceDtype
  let family := tensorFamilyInfer sourceDtype runtimeLayout kernelFamily
  match family with
  | .bf16Global =>
      if dtype = .bf16 then
        some ⟨dtype, family, .diagnosticOnly, some "bf16_source_to_fp16_or_f32_boundary",
          "native_bf16_tensor_core_execution"⟩
      else none
  | .hcControl | .f32Control =>
      if dtype ≠ .f32 ∧ dtype ≠ .i32 then none
      else if namesMatmul runtimeLayout kernelFamily then none
      else some ⟨dtype, family, .f32Control, none, "decode_completion"⟩
  | .fp8Dense =>
      if dtype = .f8E4m3B128 then
        some ⟨dtype, family, .f16Hmma, some "fp8_e4m3_b128_unpack_to_fp16_hmma_pending",
          "native_fp8_tensor_core_execution"⟩
      else none
  | .mxfp4Expert =>
      if dtype = .mxfp4 ∨ dtype = .fp4 then
        some ⟨dtype, family, .lowbitKernel, some "mxfp4_or_fp4_lowbit_kernel_pending",
          "native_fp4_tensor_core_execution"⟩
      else none
  | .kvCache | .unknown => none

def classifyOrDie (sourceDtype runtimeLayout kernelFamily : Bytes) : Except String Policy :=
  match policyOf sourceDtype runtimeLayout kernelFamily with
  | some p => .ok p
  | none => .error ("unsupported V100 execution policy: dtype=" ++ shown sourceDtype ++
      " layout=" ++ shown runtimeLayout ++ " kernel=" ++ shown kernelFamily)

/-- `DS4_V100_MAX_SHAPE_DIMS`. -/
def maxShapeDims : ℕ := 4

/-- The digits of one dimension, and what follows them. -/
def readDim : ℕ → Bytes → Option (ℕ × Bytes)
  | dim, [] => some (dim, [])
  | dim, c :: s =>
      if isDigit c then
        if (maxU64 - (c.toNat - 48)) / 10 < dim then none
        else readDim (dim * 10 + (c.toNat - 48)) s
      else some (dim, c :: s)

/-- The loop of `parse_shape_dims`, on what follows the bracket. -/
def shapeDims : ℕ → Bytes → ℕ → List ℕ → Option (List ℕ × ℕ)
  | 0, _, _, _ => none
  | _ + 1, [], _, _ => none
  | fuel + 1, c :: s, product, dims =>
      if c = 93 then if s = [] ∧ dims ≠ [] then some (dims, product) else none
      else if isDigit c = false then none
      else
        match readDim 0 (c :: s) with
        | none => none
        | some (dim, rest) =>
            if dim = 0 ∨ maxU64 / dim < product then none
            else if maxShapeDims ≤ dims.length then none
            else
              match rest with
              | 120 :: rest => shapeDims fuel rest (product * dim) (dims ++ [dim])
              | 93 :: _ => shapeDims fuel rest (product * dim) (dims ++ [dim])
              | _ => none

/-- `parse_shape_dims`: the dimensions and their product. -/
def parseShapeDims (shape : Bytes) : Option (List ℕ × ℕ) :=
  match shape with
  | 91 :: s => shapeDims (s.length + 1) s 1 []
  | _ => none

end Ds4.Context
