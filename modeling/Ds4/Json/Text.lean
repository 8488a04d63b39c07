import Ds4.Bytes.Ascii

/-! JSON values and their RFC 8259 texts over bytes. Strings keep the elements of the
literal, so that the decoding of escapes is a separate function. -/
namespace Ds4.Json

/-- One element of a string literal: a byte, or a UTF-16 code unit written as `\uXXXX`. -/
inductive StrElem where
  | byte (b : UInt8)
  | unit (u : ℕ)
  deriving DecidableEq, Repr

inductive Value (σ : Type) where
  | null
  | bool (b : Bool)
  | num (lexeme : Bytes)
  | str (s : σ)
  | arr (items : List (Value σ))
  | obj (members : List (σ × Value σ))

/-- A value whose strings are still literals. -/
abbrev Syn := Value (List StrElem)

section Trees
variable {σ τ : Type}

mutual
def Value.map (f : σ → τ) : Value σ → Value τ
  | .null => .null
  | .bool b => .bool b
  | .num l => .num l
  | .str s => .str (f s)
  | .arr l => .arr (mapItems f l)
  | .obj l => .obj (mapMembers f l)

def mapItems (f : σ → τ) : List (Value σ) → List (Value τ)
  | [] => []
  | v :: vs => v.map f :: mapItems f vs

def mapMembers (f : σ → τ) : List (σ × Value σ) → List (τ × Value τ)
  | [] => []
  | (k, v) :: l => (f k, v.map f) :: mapMembers f l
end

mutual
/-- Nesting depth: scalars have depth zero. -/
def Value.depth : Value σ → ℕ
  | .arr l => depthItems l + 1
  | .obj l => depthMembers l + 1
  | _ => 0

def depthItems : List (Value σ) → ℕ
  | [] => 0
  | v :: vs => max v.depth (depthItems vs)

def depthMembers : List (σ × Value σ) → ℕ
  | [] => 0
  | (_, v) :: l => max v.depth (depthMembers l)
end

end Trees

section Decidability
variable {σ : Type} [DecidableEq σ]
mutual
def Value.beq : Value σ → Value σ → Bool
  | .null, .null => true
  | .bool a, .bool b => a == b
  | .num a, .num b => a == b
  | .str a, .str b => a == b
  | .arr a, .arr b => beqItems a b
  | .obj a, .obj b => beqMembers a b
  | _, _ => false

def beqItems : List (Value σ) → List (Value σ) → Bool
  | [], [] => true
  | a :: l, b :: m => a.beq b && beqItems l m
  | _, _ => false

def beqMembers : List (σ × Value σ) → List (σ × Value σ) → Bool
  | [], [] => true
  | (k, a) :: l, (j, b) :: m => k == j && a.beq b && beqMembers l m
  | _, _ => false
end

mutual
theorem Value.beq_iff : ∀ a b : Value σ, a.beq b = true ↔ a = b
  | .null, b => by cases b <;> simp [Value.beq]
  | .bool _, b => by cases b <;> simp [Value.beq]
  | .num _, b => by cases b <;> simp [Value.beq]
  | .str _, b => by cases b <;> simp [Value.beq]
  | .arr l, b => by cases b <;> simp [Value.beq, beqItems_iff l]
  | .obj l, b => by cases b <;> simp [Value.beq, beqMembers_iff l]

theorem beqItems_iff : ∀ l m : List (Value σ), beqItems l m = true ↔ l = m
  | [], m => by cases m <;> simp [beqItems]
  | a :: l, m => by cases m <;> simp [beqItems, Value.beq_iff a, beqItems_iff l]

theorem beqMembers_iff : ∀ l m : List (σ × Value σ), beqMembers l m = true ↔ l = m
  | [], m => by cases m <;> simp [beqMembers]
  | (k, a) :: l, m => by
      cases m <;> simp [beqMembers, Value.beq_iff a, beqMembers_iff l, Prod.ext_iff]
end

instance : DecidableEq (Value σ) := fun a b => decidable_of_iff _ (Value.beq_iff a b)

end Decidability

def isHigh (u : ℕ) : Bool := decide (0xd800 ≤ u) && decide (u ≤ 0xdbff)
def isLow (u : ℕ) : Bool := decide (0xdc00 ≤ u) && decide (u ≤ 0xdfff)

def combine (hi lo : ℕ) : ℕ := 0x10000 + ((hi - 0xd800) <<< 10) + (lo - 0xdc00)

/-- The bytes of a string literal. A surrogate pair is one code point; an unpaired
surrogate keeps its own three bytes. -/
def decode : List StrElem → Bytes
  | [] => []
  | .byte b :: es => b :: decode es
  | .unit u :: es =>
      match es with
      | .unit v :: es' =>
          if isHigh u && isLow v then utf8Put (combine u v) ++ decode es'
          else utf8Put u ++ decode (.unit v :: es')
      | es => utf8Put u ++ decode es

def hexVal (c : UInt8) : Option ℕ :=
  if 48 ≤ c ∧ c ≤ 57 then some (c.toNat - 48)
  else if 97 ≤ c ∧ c ≤ 102 then some (10 + c.toNat - 97)
  else if 65 ≤ c ∧ c ≤ 70 then some (10 + c.toNat - 65)
  else none

def hex4 (a b c d : UInt8) : Option ℕ :=
  match hexVal a, hexVal b, hexVal c, hexVal d with
  | some a, some b, some c, some d => some (((a * 16 + b) * 16 + c) * 16 + d)
  | _, _, _, _ => none

/-- The byte a two-character escape stands for. -/
def simpleEscape (e : UInt8) : Option UInt8 :=
  if e = 34 ∨ e = 92 ∨ e = 47 then some e
  else if e = 98 then some 8
  else if e = 102 then some 12
  else if e = 110 then some 10
  else if e = 114 then some 13
  else if e = 116 then some 9
  else none

/-- The characters between the quotes of a string literal. -/
inductive BodyText : Bytes → List StrElem → Prop
  | nil : BodyText [] []
  | raw {b : UInt8} {t es} (hlo : 32 ≤ b) (hq : b ≠ 34) (hb : b ≠ 92) :
      BodyText t es → BodyText (b :: t) (.byte b :: es)
  | esc {e x : UInt8} {t es} (he : simpleEscape e = some x) :
      BodyText t es → BodyText (92 :: e :: t) (.byte x :: es)
  | unit {a b c d : UInt8} {u t es} (hu : hex4 a b c d = some u) :
      BodyText t es → BodyText (92 :: 117 :: a :: b :: c :: d :: t) (.unit u :: es)

inductive StringText : Bytes → List StrElem → Prop
  | mk {t es} : BodyText t es → StringText (34 :: (t ++ [34])) es

def Digits (d : Bytes) : Prop := d ≠ [] ∧ ∀ c ∈ d, isDigit c = true

inductive NumberText : Bytes → Prop
  | mk {sg int fr ex : Bytes} (hsg : sg = [] ∨ sg = [45])
      (hint : int = [48] ∨ (Digits int ∧ int.head? ≠ some 48))
      (hfr : fr = [] ∨ ∃ d, Digits d ∧ fr = 46 :: d)
      (hex : ex = [] ∨ ∃ e s d, (e = 101 ∨ e = 69) ∧ (s = [] ∨ s = [43] ∨ s = [45]) ∧
        Digits d ∧ ex = e :: (s ++ d)) :
      NumberText (sg ++ (int ++ (fr ++ ex)))

/-- The four whitespace characters of RFC 8259. -/
def isWs (c : UInt8) : Bool := c == 32 || c == 9 || c == 10 || c == 13

def Ws (w : Bytes) : Prop := ∀ c ∈ w, isWs c = true

mutual
inductive ValueText : Bytes → Syn → Prop
  | null : ValueText (lit "null") .null
  | true : ValueText (lit "true") (.bool .true)
  | false : ValueText (lit "false") (.bool .false)
  | num {t} : NumberText t → ValueText t (.num t)
  | str {t es} : StringText t es → ValueText t (.str es)
  | arrNil {w} : Ws w → ValueText (91 :: (w ++ [93])) (.arr [])
  | arr {t vs} : ItemsText t vs → ValueText (91 :: (t ++ [93])) (.arr vs)
  | objNil {w} : Ws w → ValueText (123 :: (w ++ [125])) (.obj [])
  | obj {t l} : MembersText t l → ValueText (123 :: (t ++ [125])) (.obj l)

inductive ItemsText : Bytes → List Syn → Prop
  | one {a t b v} : Ws a → ValueText t v → Ws b → ItemsText (a ++ (t ++ b)) [v]
  | cons {a t b s v vs} : Ws a → ValueText t v → Ws b → ItemsText s vs →
      ItemsText (a ++ (t ++ (b ++ 44 :: s))) (v :: vs)

inductive MembersText : Bytes → List (List StrElem × Syn) → Prop
  | one {a k b c t d es v} : Ws a → StringText k es → Ws b → Ws c → ValueText t v → Ws d →
      MembersText (a ++ (k ++ (b ++ 58 :: (c ++ (t ++ d))))) [(es, v)]
  | cons {a k b c t d s es v l} : Ws a → StringText k es → Ws b → Ws c → ValueText t v →
      Ws d → MembersText s l →
      MembersText (a ++ (k ++ (b ++ 58 :: (c ++ (t ++ (d ++ 44 :: s)))))) ((es, v) :: l)
end

end Ds4.Json
