import Mathlib.Data.Nat.Notation

/-! The sizes that the sources of the eight GPUs share. -/
namespace Ds4

def kGpus : ℕ := 8
def kHidden : ℕ := 4096
def kMid : ℕ := 2048
def kFusedN : ℕ := 2 * kMid
def kGlobalExperts : ℕ := 256
def kLocalExperts : ℕ := kGlobalExperts / kGpus
def kHcRows : ℕ := 4
def kHcMix : ℕ := 24

/-- The hidden columns of one GPU. -/
def shardCols : ℕ := kHidden / kGpus

end Ds4
