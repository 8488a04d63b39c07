import Ds4.Json.Text

/-! The server's own JSON routines: a cursor is the rest of a C string, whose end is the
terminator. A routine that fails returns `none`. -/
namespace Ds4.Json

def jsonWs (s : Bytes) : Bytes := s.dropWhile isSpace

def jsonLit (l s : Bytes) : Option Bytes := if l <+: s then some (s.drop l.length) else none

def jsonU16 : Bytes → Option (ℕ × Bytes)
  | 92 :: 117 :: a :: b :: c :: d :: r => (hex4 a b c d).map fun u => (u, r)
  | _ => none

/-- The code point written for an escape `cp` and the cursor after it. A second `\u` escape
behind a high surrogate is consumed even when it is no low surrogate. -/
def jsonCodePoint (cp : ℕ) (r : Bytes) : ℕ × Bytes :=
  if isHigh cp then
    match jsonU16 r with
    | some (lo, r') => (if isLow lo then combine cp lo else cp, r')
    | none => (cp, r)
  else (cp, r)

/-- The loop of `json_string` behind the opening quote, for at most `n` elements. -/
def jsonStringLoop : ℕ → Bytes → Option (Bytes × Bytes)
  | 0, _ => none
  | n + 1, s =>
      match s with
      | [] => none
      | 34 :: r => some ([], r)
      | 92 :: e :: r =>
          if e = 117 then
            match jsonU16 (92 :: e :: r) with
            | none => none
            | some (cp, r') =>
                let p := jsonCodePoint cp r'
                (jsonStringLoop n p.2).map fun q => (utf8Put p.1 ++ q.1, q.2)
          else
            match simpleEscape e with
            | some x => (jsonStringLoop n r).map fun q => (x :: q.1, q.2)
            | none => none
      | c :: r => if c = 92 then none else (jsonStringLoop n r).map fun q => (c :: q.1, q.2)

/-- `json_string`. The buffer may hold a zero byte; its users see `cstr` of it. -/
def jsonString (s : Bytes) : Option (Bytes × Bytes) :=
  match jsonWs s with
  | 34 :: r => jsonStringLoop (r.length + 1) r
  | _ => none

section Strtod

def isXDigit (c : UInt8) : Bool := (hexVal c).isSome

def startsNoCase (l s : Bytes) : Bool := decide ((s.take l.length).map lower = l)

def sign : Bytes → Bytes
  | 43 :: s => s
  | 45 :: s => s
  | s => s

/-- Digits with at most one point and at least one digit. -/
def mantissa (digit : UInt8 → Bool) (s : Bytes) : Option Bytes :=
  match s.dropWhile digit with
  | 46 :: r =>
      if s.takeWhile digit = [] ∧ r.takeWhile digit = [] then none else some (r.dropWhile digit)
  | r => if s.takeWhile digit = [] then none else some r

def exponent (mark : UInt8) : Bytes → Bytes
  | [] => []
  | e :: s =>
      if lower e = mark ∧ (sign s).takeWhile isDigit ≠ [] then (sign s).dropWhile isDigit
      else e :: s

def nanTail (s : Bytes) : Bytes :=
  match s with
  | 40 :: r =>
      match r.dropWhile fun c => isDigit c || c == 95 || (97 ≤ lower c && lower c ≤ 122) with
      | 41 :: r' => r'
      | _ => s
  | _ => s

/-- Where `strtod` stops, if it converts anything. -/
def strtodEnd (s : Bytes) : Option Bytes :=
  let u := sign (s.dropWhile isSpace)
  if startsNoCase (lit "infinity") u then some (u.drop 8)
  else if startsNoCase (lit "inf") u then some (u.drop 3)
  else if startsNoCase (lit "nan") u then some (nanTail (u.drop 3))
  else if startsNoCase (lit "0x") u then
    match mantissa isXDigit (u.drop 2) with
    | some r => some (exponent 112 r)
    | none => some (u.drop 1)
  else (mantissa isDigit u).map (exponent 101)

end Strtod

def jsonNumber (s : Bytes) : Option Bytes := strtodEnd (jsonWs s)

def jsonMaxNesting : ℕ := 256

mutual
/-- `json_skip_value_depth`, with the array and object cases in it. -/
def jsonSkipValueDepth : ℕ → ℕ → Bytes → Option Bytes
  | 0, _, _ => none
  | n + 1, depth, s =>
      match jsonWs s with
      | 34 :: r => (jsonString (34 :: r)).map (·.2)
      | 123 :: r =>
          if jsonMaxNesting ≤ depth then none
          else
            match jsonWs r with
            | 125 :: r' => some r'
            | r' => jsonSkipMembers n depth r'
      | 91 :: r =>
          if jsonMaxNesting ≤ depth then none
          else
            match jsonWs r with
            | 93 :: r' => some r'
            | r' => jsonSkipItems n depth r'
      | s =>
          match jsonLit (lit "true") s, jsonLit (lit "false") s, jsonLit (lit "null") s with
          | some r, _, _ => some r
          | none, some r, _ => some r
          | none, none, some r => some r
          | none, none, none => jsonNumber s

/-- The loop of `json_skip_array_depth`. -/
def jsonSkipItems : ℕ → ℕ → Bytes → Option Bytes
  | 0, _, _ => none
  | n + 1, depth, s =>
      match jsonSkipValueDepth n (depth + 1) s with
      | none => none
      | some r =>
          match jsonWs r with
          | 93 :: r' => some r'
          | 44 :: r' => jsonSkipItems n depth r'
          | _ => none

/-- The loop of `json_skip_object_depth`. -/
def jsonSkipMembers : ℕ → ℕ → Bytes → Option Bytes
  | 0, _, _ => none
  | n + 1, depth, s =>
      match jsonString s with
      | none => none
      | some (_, r) =>
          match jsonWs r with
          | 58 :: r1 =>
              match jsonSkipValueDepth n (depth + 1) r1 with
              | none => none
              | some r2 =>
                  match jsonWs r2 with
                  | 125 :: r3 => some r3
                  | 44 :: r3 => jsonSkipMembers n depth r3
                  | _ => none
          | _ => none
end

def jsonSkipValue (s : Bytes) : Option Bytes := jsonSkipValueDepth (s.length + 1) 0 s

def jsonRawValue (s : Bytes) : Option (Bytes × Bytes) :=
  (jsonSkipValue (jsonWs s)).map fun r => ((jsonWs s).take ((jsonWs s).length - r.length), r)

/-- Drops whitespace outside strings; the flags are `in_string` and `escape`. -/
def minifyLoop : Bool → Bool → Bytes → Bytes
  | _, _, [] => []
  | true, escape, c :: s =>
      c :: if escape then minifyLoop true false s
        else if c = 92 then minifyLoop true true s
        else minifyLoop (c != 34) false s
  | false, escape, c :: s =>
      if c = 34 then c :: minifyLoop true escape s
      else if isSpace c then minifyLoop false escape s
      else c :: minifyLoop false escape s

def jsonMinifyRawValue (json : Bytes) : Bytes :=
  match jsonRawValue json with
  | none => json
  | some (raw, _) => minifyLoop false false raw

def hexDigit (n : ℕ) : UInt8 := if n < 10 then (48 + n).toUInt8 else (87 + n).toUInt8

def jsonEscapeChar (c : UInt8) : Bytes :=
  if c = 34 ∨ c = 92 then [92, c]
  else if c = 10 then [92, 110]
  else if c = 13 then [92, 114]
  else if c = 9 then [92, 116]
  else if c < 32 then [92, 117, 48, 48, hexDigit (c.toNat / 16), hexDigit (c.toNat % 16)]
  else [c]

def jsonEscapeFragmentN (s : Bytes) : Bytes := s.flatMap jsonEscapeChar

def jsonEscape (s : Bytes) : Bytes := 34 :: (jsonEscapeFragmentN s ++ [34])

end Ds4.Json
