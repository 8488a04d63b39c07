import Ds4.Json.Rewrite
import Mathlib.Algebra.Order.BigOperators.Group.List
import Mathlib.Tactic.IntervalCases

/-! Objects that are printed field by field, and which of them are JSON. -/
namespace Ds4.Json

def digitByte (d : ℕ) : UInt8 := (48 + d).toUInt8

/-- A number in decimal, as `%u` and its longer forms print it. -/
def natText (n : ℕ) : Bytes := (Nat.toDigits 10 n).map fun c => c.toNat.toUInt8

/-- `%d`. -/
def intText (z : ℤ) : Bytes := if z < 0 then 45 :: natText z.natAbs else natText z.natAbs

/-- The last digits of a number, with zeros in front. -/
def paddedText : ℕ → ℕ → Bytes
  | 0, _ => []
  | k + 1, n => paddedText k (n / 10) ++ [digitByte (n % 10)]

/-- A double as it is printed with some decimals: in units of the last of them, or not a number. -/
inductive Fixed where
  | number (negative : Bool) (units : ℕ)
  | infinite (negative : Bool)
  | nan (negative : Bool)

/-- `%.6f` and the like. -/
def fixedText (decimals : ℕ) : Fixed → Bytes
  | .number neg units => (if neg then [45] else []) ++ (natText (units / 10 ^ decimals) ++
      if decimals = 0 then [] else 46 :: paddedText decimals units)
  | .infinite neg => (if neg then [45] else []) ++ lit "inf"
  | .nan neg => (if neg then [45] else []) ++ lit "nan"

def commaText : List Bytes → Bytes
  | [] => []
  | [t] => t
  | t :: ts => t ++ 44 :: commaText ts

def arrayText (items : List Bytes) : Bytes := 91 :: (commaText items ++ [93])

/-- A key and the text of its value. -/
def memberText (f : Bytes × Bytes) : Bytes := 34 :: (f.1 ++ 34 :: 58 :: f.2)

/-- What the conversions of a format print as one value. -/
inductive Printed where
  | nat (n : ℕ)
  | int (z : ℤ)
  | flag (b : Bool)
  | fixed (decimals : ℕ) (x : Fixed)
  | str (s : Bytes)
  | nats (l : List ℕ)
  | true
  | null

def Printed.text : Printed → Bytes
  | .nat n => natText n
  | .int z => intText z
  | .flag b => if b then [49] else [48]
  | .fixed decimals x => fixedText decimals x
  | .str s => jsonEscape s
  | .nats l => arrayText (l.map natText)
  | .true => lit "true"
  | .null => lit "null"

section Lengths

end Lengths

section Numbers

end Numbers

section Values
variable {t rest : Bytes} {n : ℕ}

end Values

section Objects
variable {fs : List (Bytes × Bytes)}

end Objects

end Ds4.Json
