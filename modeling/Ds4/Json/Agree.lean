import Ds4.Json.Correct
import Ds4.Json.Cursor
import Mathlib.Data.List.DropRight
import Mathlib.Data.Nat.SuccPred

/-! On a text of the grammar the server's routines stop where the text ends. What
`json_string` writes differs from the decoded literal in one place: a `\u` escape behind a
high surrogate that does not complete the pair is lost. -/
namespace Ds4.Json

/-- What `json_string` writes for a literal. -/
def written : List StrElem → Bytes
  | [] => []
  | .byte b :: es => b :: written es
  | .unit u :: es =>
      match es with
      | .unit v :: es' =>
          if isHigh u then utf8Put (if isLow v then combine u v else u) ++ written es'
          else utf8Put u ++ written (.unit v :: es')
      | es => utf8Put u ++ written es

/-- No `\u` escape is lost: behind a high surrogate comes a low one or no escape. -/
def keepsUnits : List StrElem → Bool
  | [] => true
  | .byte _ :: es => keepsUnits es
  | .unit u :: es =>
      match es with
      | .unit v :: es' => if isHigh u then isLow v && keepsUnits es'
          else keepsUnits (.unit v :: es')
      | es => keepsUnits es

theorem written_of_keepsUnits {es : List StrElem} (h : keepsUnits es = true) :
    written es = decode es := by
  fun_induction written es with
  | case1 => rfl
  | case2 b es ih => rw [decode, ih (by simpa [keepsUnits] using h)]
  | case3 u v es hu ih =>
    simp only [keepsUnits, hu, ↓reduceIte, Bool.and_eq_true] at h
    simp only [decode, hu, h.1, Bool.and_self, ↓reduceIte, ih h.2]
  | case4 u v es hu ih =>
    simp only [keepsUnits, hu] at h
    simp [decode, hu, ih (by simpa [keepsUnits] using h)]
  | case5 u es hes ih =>
    rw [decode.eq_def]
    rw [keepsUnits.eq_def] at h
    cases es with
    | nil => simp [decode, written]
    | cons e es =>
      cases e with
      | byte b => simp [ih (by simpa [keepsUnits] using h)]
      | unit v => exact absurd rfl (hes v es)

theorem utf8Put_combine (u v : ℕ) : (utf8Put (combine u v)).length = 4 := by
  unfold utf8Put combine
  rw [if_neg (by omega), if_neg (by omega), if_neg (by omega)]
  rfl

theorem utf8Put_isLow {u : ℕ} (h : isLow u = true) : (utf8Put u).length = 3 := by
  simp only [isLow, Bool.and_eq_true, decide_eq_true_eq] at h
  unfold utf8Put
  rw [if_neg (by omega), if_neg (by omega), if_pos (by omega)]
  rfl

theorem not_isHigh_of_isLow {u : ℕ} (h : isLow u = true) : isHigh u = false := by
  simp only [isLow, isHigh, Bool.and_eq_true, decide_eq_true_eq, Bool.and_eq_false_iff,
    decide_eq_false_iff_not] at *
  omega

/-- An escape in front adds bytes even when it forms a pair with the next one. -/
theorem decode_length_lt (u : ℕ) (es : List StrElem) :
    (decode es).length < (decode (.unit u :: es)).length := by
  have hu := utf8Put_length_pos u
  cases es with
  | nil => simpa [decode] using hu
  | cons e es =>
    cases e with
    | byte b => simpa [decode] using hu
    | unit v =>
      by_cases hp : (isHigh u && isLow v) = true
      · have hv := (Bool.and_eq_true _ _ ▸ hp).2
        have hsingle : decode (.unit v :: es) = utf8Put v ++ decode es := by
          rw [decode.eq_def]
          cases es with
          | nil => rfl
          | cons e es => cases e <;> simp [not_isHigh_of_isLow hv]
        rw [hsingle]
        simp [decode, hp, utf8Put_combine, utf8Put_isLow hv]
      · simpa [decode, hp] using hu

theorem written_length_le (es : List StrElem) :
    (written es).length ≤ (decode es).length ∧
      (keepsUnits es = false → (written es).length < (decode es).length) := by
  fun_induction written es with
  | case1 => simp [decode, keepsUnits]
  | case2 b es ih => simpa [decode, keepsUnits] using ih
  | case3 u v es hu ih =>
    cases hv : isLow v with
    | true => simpa [decode, keepsUnits, hu, hv] using ih
    | false =>
      have hrest := decode_length_lt v es
      simp only [decode, hu, hv, Bool.and_false, Bool.false_eq_true, ↓reduceIte,
        List.length_append]
      omega
  | case4 u v es hu ih => simpa [decode, keepsUnits, hu] using ih
  | case5 u es hes ih =>
    cases es with
    | nil => simp [decode, written, keepsUnits]
    | cons e es =>
      cases e with
      | byte b => simpa [decode, keepsUnits] using ih
      | unit v => exact absurd rfl (hes v es)

theorem written_eq_iff {es : List StrElem} : written es = decode es ↔ keepsUnits es = true := by
  refine ⟨fun h => ?_, written_of_keepsUnits⟩
  by_contra hk
  have := (written_length_le es).2 (by simpa using hk)
  rw [h] at this
  exact this.false

theorem jsonU16_cons {c : UInt8} {s : Bytes} (h : c ≠ 92) : jsonU16 (c :: s) = none := by
  unfold jsonU16
  split
  · next heq => exact absurd (List.cons.inj heq).1 h
  · rfl

theorem jsonU16_escape {e : UInt8} {s : Bytes} (h : e ≠ 117) : jsonU16 (92 :: e :: s) = none := by
  unfold jsonU16
  split
  · next heq => exact absurd (List.cons.inj (List.cons.inj heq).2).1 h
  · rfl

theorem jsonStringLoop_text {t r : Bytes} {es : List StrElem} (n : ℕ) (h : BodyText t es)
    (hn : t.length < n) : jsonStringLoop n (t ++ 34 :: r) = some (written es, r) := by
  induction n generalizing t es with
  | zero => omega
  | succ n ih =>
    cases h with
    | nil => simp [jsonStringLoop, written]
    | @raw b t es hlo hq hb h =>
      have := ih h (by simpa using hn)
      rw [List.cons_append, jsonStringLoop.eq_def]
      simp [hb, this, written]
    | @esc e x t es he h =>
      have := ih h (by simp at hn; omega)
      rw [List.cons_append, List.cons_append, jsonStringLoop.eq_def]
      simp [simpleEscape_ne he, he, this, written]
    | @unit a b c d u t es hu h =>
      have hrec := ih h (by simp at hn; omega)
      rw [List.cons_append, List.cons_append, jsonStringLoop.eq_def]
      simp only [↓reduceIte, List.cons_append, jsonU16, hu, Option.map_some]
      cases hh : isHigh u with
      | false =>
        simp only [jsonCodePoint, hh, Bool.false_eq_true, ↓reduceIte, hrec, Option.map_some]
        cases es with
        | nil => simp [written]
        | cons e es => cases e <;> simp [written, hh]
      | true =>
        cases h with
        | nil =>
          have hnone : jsonU16 (34 :: r) = none := jsonU16_cons (by decide)
          simp only [List.nil_append] at hrec ⊢
          simp [jsonCodePoint, hh, hnone, hrec, written]
        | @raw b' t' _ hlo hq hb h =>
          have hnone := jsonU16_cons (s := t' ++ 34 :: r) hb
          simp only [List.cons_append] at hrec ⊢
          simp [jsonCodePoint, hh, hnone, hrec, written]
        | @esc e x t' _ he h =>
          have hnone := jsonU16_escape (s := t' ++ 34 :: r) (simpleEscape_ne he)
          simp only [List.cons_append] at hrec ⊢
          simp [jsonCodePoint, hh, hnone, hrec, written]
        | @unit a' b' c' d' v t es hv h =>
          have hrec' := ih h (by simp at hn; omega)
          simp [jsonCodePoint, hh, jsonU16, hv, hrec', written]

theorem jsonWs_append {a s : Bytes} (h : Ws a) : jsonWs (a ++ s) = jsonWs s := by
  refine List.dropWhile_append_of_pos fun c hc => ?_
  have := h c hc
  simp only [isWs, Bool.or_eq_true, beq_iff_eq] at this
  rcases this with ((rfl | rfl) | rfl) | rfl <;> decide

theorem jsonWs_cons {c : UInt8} {s : Bytes} (h : isSpace c = false) : jsonWs (c :: s) = c :: s := by
  simp [jsonWs, h]

theorem jsonWs_mark {a r : Bytes} {c : UInt8} (ha : Ws a) (hc : isSpace c = false) :
    jsonWs (a ++ c :: r) = c :: r := by
  rw [jsonWs_append ha, jsonWs_cons hc]

theorem jsonWs_value {a t r : Bytes} {v : Syn} (ha : Ws a) (h : ValueText t v) :
    jsonWs (a ++ (t ++ r)) = t ++ r := by
  obtain ⟨c, u, rfl, -, hc, -⟩ := valueText_head h
  rw [jsonWs_append ha, List.cons_append, jsonWs_cons hc]

theorem jsonString_text {a t r : Bytes} {es : List StrElem} (ha : Ws a) (h : StringText t es) :
    jsonString (a ++ (t ++ r)) = some (written es, r) := by
  obtain ⟨hb⟩ := h
  next t =>
  unfold jsonString
  simp only [List.cons_append, List.append_assoc]
  rw [jsonWs_mark ha (by decide)]
  exact jsonStringLoop_text _ hb (by simp)

section Numbers

theorem mantissa_text {i f r : Bytes} (hi : Digits i)
    (hf : f = [] ∨ ∃ d, Digits d ∧ f = 46 :: d)
    (hr : ∀ c ∈ r.head?, isDigit c = false ∧ c ≠ 46) :
    mantissa isDigit (i ++ (f ++ r)) = some r := by
  unfold mantissa
  rcases hf with rfl | ⟨d, hd, rfl⟩
  · obtain ⟨ht, hdr⟩ := takeWhile_digits hi.2 fun c hc => (hr c hc).1
    simp only [List.nil_append, ht, hdr]
    split
    · next heq => exact absurd rfl (hr 46 (by simp)).2
    · rw [if_neg hi.1]
  · obtain ⟨ht, hdr⟩ := takeWhile_digits (r := 46 :: (d ++ r)) hi.2
      (fun c hc => by obtain rfl : 46 = c := by simpa using hc
                      decide)
    obtain ⟨ht', hdr'⟩ := takeWhile_digits hd.2 fun c hc => (hr c hc).1
    simp [ht, hdr, ht', hdr', hi.1]

theorem sign_splitSign (s : Bytes) : sign s = (splitSign s).2 := by
  unfold sign splitSign
  split <;> simp

private theorem lower_spec : ∀ c : UInt8, (lower c = 101 ↔ c = 101 ∨ c = 69) ∧
    (lower c = 120 → c = 120 ∨ c = 88) ∧
    (isDigit c = true → lower c = c ∧ isSpace c = false) := by
  decide +kernel

private theorem lower_e (e : UInt8) : lower e = 101 ↔ e = 101 ∨ e = 69 := (lower_spec e).1

theorem exponent_text {ex r : Bytes} (hr : NumEnd r)
    (h : ex = [] ∨ ∃ e g d, (e = 101 ∨ e = 69) ∧ (g = [] ∨ g = [43] ∨ g = [45]) ∧
      Digits d ∧ ex = e :: (g ++ d)) : exponent 101 (ex ++ r) = r := by
  have hex := readExp_complete hr h
  cases hs : ex ++ r with
  | nil =>
    rw [hs] at hex
    simpa [readExp, exponent] using (Prod.mk.inj hex).2
  | cons e s =>
    rw [hs] at hex
    simp only [exponent, sign_splitSign, lower_e]
    simp only [readExp] at hex
    split_ifs at hex ⊢ with hc
    · exact (Prod.mk.inj hex).2
    · exact (Prod.mk.inj hex).2

theorem startsNoCase_cons {a c : UInt8} {l s : Bytes}
    (h : startsNoCase (a :: l) (c :: s) = true) :
    lower c = a ∧ startsNoCase l s = true := by
  simpa [startsNoCase] using h

private theorem lower_digit (c : UInt8) (h : isDigit c = true) : lower c = c :=
  ((lower_spec c).2.2 h).1

private theorem lower_x (c : UInt8) (h : lower c = 120) : c = 120 ∨ c = 88 := (lower_spec c).2.1 h

private theorem digit_not_space (c : UInt8) (h : isDigit c = true) : isSpace c = false :=
  ((lower_spec c).2.2 h).2

/-- What `strtod` does where a digit stands, behind a minus or not. -/
theorem strtodEnd_digit {sg w : Bytes} {c : UInt8} (hsg : sg = [] ∨ sg = [45])
    (hc : isDigit c = true) : strtodEnd (sg ++ c :: w) =
      if startsNoCase (lit "0x") (c :: w) then
        match mantissa isXDigit ((c :: w).drop 2) with
        | some r => some (exponent 112 r)
        | none => some w
      else (mantissa isDigit (c :: w)).map (exponent 101) := by
  have hskip : (sg ++ c :: w).dropWhile isSpace = sg ++ c :: w := by
    rcases hsg with rfl | rfl
    · simp [digit_not_space c hc]
    · simp [isSpace]
  have hsign : sign (sg ++ c :: w) = c :: w := by
    rcases hsg with rfl | rfl
    · rw [List.nil_append, sign.eq_def]
      split
      · next heq => exact absurd ((List.cons.inj heq).1 ▸ hc) (by decide)
      · next heq => exact absurd ((List.cons.inj heq).1 ▸ hc) (by decide)
      · rfl
    · rfl
  have hword : ∀ a l, a ≠ c → startsNoCase (a :: l) (c :: w) = false := by
    intro a l ha
    by_contra hs
    have := (startsNoCase_cons (by simpa using hs)).1
    exact ha (this ▸ lower_digit c hc)
  have hi : (105 : UInt8) ≠ c := fun h => absurd (h ▸ hc) (by decide)
  have hn : (110 : UInt8) ≠ c := fun h => absurd (h ▸ hc) (by decide)
  have hinfinity : startsNoCase (lit "infinity") (c :: w) = false := hword 105 (lit "nfinity") hi
  have hinf : startsNoCase (lit "inf") (c :: w) = false := hword 105 (lit "nf") hi
  have hnan : startsNoCase (lit "nan") (c :: w) = false := hword 110 (lit "an") hn
  unfold strtodEnd
  simp only [hskip, hsign, hinfinity, hinf, hnan, Bool.false_eq_true, ↓reduceIte]
  rfl

/-- Blanks are skipped in front of a number, but no number begins with one. -/
theorem jsonNumber_digit {sg w : Bytes} {c : UInt8} (hsg : sg = [] ∨ sg = [45])
    (hc : isDigit c = true) : jsonNumber (sg ++ c :: w) = strtodEnd (sg ++ c :: w) := by
  have hskip : jsonWs (sg ++ c :: w) = sg ++ c :: w := by
    rcases hsg with rfl | rfl
    · simp [jsonWs, digit_not_space c hc]
    · simp [jsonWs, isSpace]
  unfold jsonNumber
  rw [hskip]

/-- A JSON number that begins like a hexadecimal one is a zero. -/
theorem hex_behind_zero {i s : Bytes} {c : UInt8} (hc : isDigit c = true)
    (hint : c :: i = [48] ∨ (Digits (c :: i) ∧ (c :: i).head? ≠ some 48))
    (h : startsNoCase (lit "0x") (c :: (i ++ s)) = true) :
    i = [] ∧ ∃ d u, s = d :: u ∧ lower d = 120 := by
  have hs : startsNoCase (48 :: [120]) (c :: (i ++ s)) = true := h
  obtain ⟨h0, h1⟩ := startsNoCase_cons hs
  rw [lower_digit c hc] at h0
  subst h0
  obtain rfl : i = [] := by
    rcases hint with heq | ⟨-, hne⟩
    · exact (List.cons.inj heq).2
    · simp at hne
  refine ⟨rfl, ?_⟩
  cases s with
  | nil => simp [startsNoCase] at h1
  | cons d u => exact ⟨d, u, rfl, (startsNoCase_cons h1).1⟩

/-- `strtod` takes a JSON number and no more. -/
theorem jsonNumber_text {n r : Bytes} (h : NumberText n) (hr : NumEnd r) :
    jsonNumber (n ++ r) = some r := by
  obtain ⟨hsg, hint, hfr, hex⟩ := h
  next sg int fr ex =>
  have htail := exp_head hr hex
  have hafter := frac_head htail hfr
  obtain ⟨c, i, rfl, hc⟩ : ∃ c i, int = c :: i ∧ isDigit c = true := by
    rcases hint with rfl | ⟨⟨hne, hd⟩, -⟩
    · exact ⟨48, [], rfl, by decide⟩
    · cases int with
      | nil => exact absurd rfl hne
      | cons c i => exact ⟨c, i, rfl, hd c (by simp)⟩
  have hdig : Digits (c :: i) := by
    rcases hint with heq | ⟨hd, -⟩
    · rw [heq]
      exact ⟨by simp, by simp [isDigit]⟩
    · exact hd
  have htext : sg ++ (c :: i ++ (fr ++ ex)) ++ r = sg ++ c :: (i ++ (fr ++ (ex ++ r))) := by
    simp
  have hhex : startsNoCase (lit "0x") (c :: (i ++ (fr ++ (ex ++ r)))) = false := by
    by_contra hs
    rw [Bool.not_eq_false] at hs
    obtain ⟨-, d, s, hs', hx⟩ := hex_behind_zero hc hint hs
    rw [hs'] at hafter
    have hd := hafter d (by simp)
    rcases lower_x d hx with rfl | rfl
    · exact hd.2.1 rfl
    · exact hd.2.2 rfl
  have hmantissa : mantissa isDigit (c :: (i ++ (fr ++ (ex ++ r)))) = some (ex ++ r) :=
    mantissa_text hdig hfr fun c hc => ⟨(htail c hc).1, (htail c hc).2.1⟩
  rw [htext, jsonNumber_digit hsg hc, strtodEnd_digit hsg hc, hhex, if_neg Bool.false_ne_true,
    hmantissa, Option.map_some, exponent_text hr hex]

end Numbers

section Skipping

/-- Whether nesting that starts at `depth` stays within the limit. -/
def Fits (depth d : ℕ) : Prop := d + depth ≤ jsonMaxNesting

instance (depth d : ℕ) : Decidable (Fits depth d) := inferInstanceAs (Decidable (_ ≤ _))

theorem fits_succ {depth d : ℕ} : Fits depth (d + 1) ↔ Fits (depth + 1) d := by
  unfold Fits
  omega

theorem fits_max {depth a b : ℕ} : Fits depth (max a b) ↔ Fits depth a ∧ Fits depth b := by
  unfold Fits
  omega

theorem not_fits_of_limit {depth d : ℕ} (h : jsonMaxNesting ≤ depth) : ¬ Fits depth (d + 1) := by
  unfold Fits
  omega

private theorem skip_number {n depth : ℕ} {t r : Bytes} (h : NumberText t)
    (hnum : jsonNumber (t ++ r) = some r) :
    jsonSkipValueDepth (n + 1) depth (t ++ r) = some r := by
  obtain ⟨c, u, rfl, hc⟩ := numberText_head h
  have hsp : isSpace c = false := by
    rcases hc with rfl | hc
    · decide
    · exact digit_not_space c hc
  have hne : ∀ d l, (d = 110 ∨ d = 116 ∨ d = 102) → jsonLit (d :: l) (c :: u ++ r) = none := by
    intro d l hd
    refine if_neg fun hp => ?_
    obtain ⟨rfl, -⟩ := List.cons_prefix_cons.mp hp
    rcases hd with rfl | rfl | rfl <;> rcases hc with hc | hc <;> exact absurd hc (by decide)
  have hnull : jsonLit (lit "null") (c :: u ++ r) = none := hne 110 _ (.inl rfl)
  have htrue : jsonLit (lit "true") (c :: u ++ r) = none := hne 116 _ (.inr (.inl rfl))
  have hfalse : jsonLit (lit "false") (c :: u ++ r) = none := hne 102 _ (.inr (.inr rfl))
  rw [jsonSkipValueDepth.eq_def]
  simp only [List.cons_append, jsonWs_cons hsp] at *
  split
  · next heq =>
    obtain ⟨rfl, -⟩ := List.cons.inj heq
    rcases hc with hc | hc <;> exact absurd hc (by decide)
  · next heq =>
    obtain ⟨rfl, -⟩ := List.cons.inj heq
    rcases hc with hc | hc <;> exact absurd hc (by decide)
  · next heq =>
    obtain ⟨rfl, -⟩ := List.cons.inj heq
    rcases hc with hc | hc <;> exact absurd hc (by decide)
  · simp only [hnull, htrue, hfalse, hnum]

theorem jsonWs_idem (s : Bytes) : jsonWs (jsonWs s) = jsonWs s := List.dropWhile_idempotent ..

theorem skipValue_jsonWs (n depth : ℕ) (s : Bytes) :
    jsonSkipValueDepth n depth (jsonWs s) = jsonSkipValueDepth n depth s := by
  cases n with
  | zero => rfl
  | succ n => simp only [jsonSkipValueDepth, jsonWs_idem]

theorem skipItems_jsonWs (n depth : ℕ) (s : Bytes) :
    jsonSkipItems n depth (jsonWs s) = jsonSkipItems n depth s := by
  cases n with
  | zero => rfl
  | succ n => simp only [jsonSkipItems, skipValue_jsonWs]

theorem skipMembers_jsonWs (n depth : ℕ) (s : Bytes) :
    jsonSkipMembers n depth (jsonWs s) = jsonSkipMembers n depth s := by
  cases n with
  | zero => rfl
  | succ n => simp only [jsonSkipMembers, jsonString, jsonWs_idem]

theorem skipValue_ws {n depth : ℕ} {a s : Bytes} (ha : Ws a) :
    jsonSkipValueDepth n depth (a ++ s) = jsonSkipValueDepth n depth s := by
  rw [← skipValue_jsonWs, jsonWs_append ha, skipValue_jsonWs]

theorem jsonWs_items {t r : Bytes} {vs : List Syn} (h : ItemsText t vs) :
    ∃ c u, jsonWs (t ++ r) = c :: u ∧ c ≠ 93 := by
  cases h with
  | one ha hv _ | cons ha hv _ _ =>
    obtain ⟨c, u, hu, -, -, hc, -⟩ := valueText_head hv
    simp only [List.append_assoc]
    rw [jsonWs_value ha hv, hu]
    exact ⟨c, _, rfl, hc⟩

theorem jsonWs_members {t r : Bytes} {l : List (List StrElem × Syn)} (h : MembersText t l) :
    ∃ c u, jsonWs (t ++ r) = c :: u ∧ c ≠ 125 := by
  cases h with
  | one ha hk _ _ _ _ | cons ha hk _ _ _ _ _ =>
    obtain ⟨_⟩ := hk
    simp only [List.append_assoc, List.cons_append]
    rw [jsonWs_mark ha (by decide)]
    exact ⟨34, _, rfl, by decide⟩

/-- Where the value is a number, the number ends with it. -/
def NumberStops (t r : Bytes) (v : Syn) : Prop := ∀ l, v = .num l → jsonNumber (t ++ r) = some r

theorem numberStops_of_numEnd {t r : Bytes} {v : Syn} (h : ValueText t v) (hr : NumEnd r) :
    NumberStops t r v := by
  rintro l rfl
  cases h with
  | num hnum => exact jsonNumber_text hnum hr

/-- The skipper accepts a value exactly when its nesting fits, and stops behind it. -/
private theorem skip_text (n : ℕ) :
    (∀ depth t v r, depth ≤ jsonMaxNesting → ValueText t v → NumberStops t r v → t.length ≤ n →
      jsonSkipValueDepth n depth (t ++ r) = if Fits depth v.depth then some r else none) ∧
    (∀ depth t vs r, depth < jsonMaxNesting → ItemsText t vs → t.length + 1 ≤ n →
      jsonSkipItems n depth (t ++ 93 :: r) =
        if Fits depth (depthItems vs + 1) then some r else none) ∧
    (∀ depth t l r, depth < jsonMaxNesting → MembersText t l → t.length + 1 ≤ n →
      jsonSkipMembers n depth (t ++ 125 :: r) =
        if Fits depth (depthMembers l + 1) then some r else none) := by
  induction n with
  | zero =>
    refine ⟨fun _ t v r _ h _ hn => ?_, fun _ _ _ _ _ _ hn => ?_, fun _ _ _ _ _ _ hn => ?_⟩
    · obtain ⟨c, u, rfl, -⟩ := valueText_head h
      simp at hn
    all_goals omega
  | succ n ih =>
    obtain ⟨ihv, ihi, ihm⟩ := ih
    refine ⟨fun depth t v r hd h hr hn => ?_, fun depth t vs r hd h hn => ?_,
      fun depth t l r hd h hn => ?_⟩
    · have hscalar : Fits depth 0 := by simpa [Fits] using hd
      have hopen : jsonMaxNesting ≤ depth ↔ ¬ Fits depth 1 := by
        unfold Fits
        omega
      cases h with
      | null | true | false => rw [Value.depth, if_pos hscalar]; rfl; all_goals simp
      | num hnum =>
        rw [skip_number hnum (hr _ rfl), Value.depth, if_pos hscalar]
        all_goals simp
      | str hs =>
        rw [Value.depth, if_pos hscalar]
        · have hstr := jsonString_text (a := []) (r := r) (by simp [Ws]) hs
          obtain ⟨_⟩ := hs
          simp only [List.nil_append, List.cons_append] at hstr
          simp only [List.cons_append, jsonSkipValueDepth,
            jsonWs_cons (by decide : isSpace 34 = false), hstr, Option.map_some]
        all_goals simp
      | arrNil hw =>
        simp only [List.cons_append, List.nil_append, List.append_assoc, jsonSkipValueDepth,
          jsonWs_cons (by decide : isSpace 91 = false),
          jsonWs_mark hw (by decide : isSpace 93 = false), hopen, ite_not, Value.depth, depthItems,
          Nat.zero_add]
      | objNil hw =>
        simp only [List.cons_append, List.nil_append, List.append_assoc, jsonSkipValueDepth,
          jsonWs_cons (by decide : isSpace 123 = false),
          jsonWs_mark hw (by decide : isSpace 125 = false), hopen, ite_not, Value.depth,
          depthMembers, Nat.zero_add]
      | @arr t vs hi =>
        simp only [List.cons_append, List.nil_append, List.append_assoc, jsonSkipValueDepth,
          jsonWs_cons (by decide : isSpace 91 = false), Value.depth]
        by_cases hlim : jsonMaxNesting ≤ depth
        · simp only [hlim, not_fits_of_limit hlim, ↓reduceIte]
        · have hread := ihi depth t vs r (by omega) hi (by simp at hn; omega)
          obtain ⟨c, u, hc, h93⟩ := jsonWs_items (r := 93 :: r) hi
          rw [← skipItems_jsonWs, hc] at hread
          rw [if_neg hlim, hc]
          split
          · next heq => exact absurd (List.cons.inj heq).1 h93
          · exact hread
      | @obj t l hm =>
        simp only [List.cons_append, List.nil_append, List.append_assoc, jsonSkipValueDepth,
          jsonWs_cons (by decide : isSpace 123 = false), Value.depth]
        by_cases hlim : jsonMaxNesting ≤ depth
        · simp only [hlim, not_fits_of_limit hlim, ↓reduceIte]
        · have hread := ihm depth t l r (by omega) hm (by simp at hn; omega)
          obtain ⟨c, u, hc, h125⟩ := jsonWs_members (r := 125 :: r) hm
          rw [← skipMembers_jsonWs, hc] at hread
          rw [if_neg hlim, hc]
          split
          · next heq => exact absurd (List.cons.inj heq).1 h125
          · exact hread
    · cases h with
      | @one a t b v ha hv hb =>
        have hval := ihv (depth + 1) t v (b ++ 93 :: r) hd hv
          (numberStops_of_numEnd hv (numEnd_ws hb (numEnd_cons (by decide)))) (by simp at hn; omega)
        simp only [List.append_assoc, jsonSkipItems, skipValue_ws ha, hval, depthItems,
          fits_succ, Nat.max_zero]
        by_cases hf : Fits (depth + 1) v.depth
        · simp [hf, jsonWs_mark hb (by decide : isSpace 93 = false)]
        · simp [hf]
      | @cons a t b s v vs ha hv hb hs =>
        have hval := ihv (depth + 1) t v (b ++ 44 :: (s ++ 93 :: r)) hd hv
          (numberStops_of_numEnd hv (numEnd_ws hb (numEnd_cons (by decide)))) (by simp at hn; omega)
        have hrest := ihi depth s vs r hd hs (by simp at hn; omega)
        simp only [List.append_assoc, List.cons_append, jsonSkipItems, skipValue_ws ha, hval,
          depthItems, fits_succ, fits_max]
        by_cases hf : Fits (depth + 1) v.depth
        · simp [hf, jsonWs_mark hb (by decide : isSpace 44 = false), hrest, fits_succ]
        · simp [hf]
    · cases h with
      | @one a k b c t d es v ha hk hb hc hv hd' =>
        have hval := ihv (depth + 1) t v (d ++ 125 :: r) hd hv
          (numberStops_of_numEnd hv (numEnd_ws hd' (numEnd_cons (by decide))))
            (by simp at hn; omega)
        simp only [List.append_assoc, List.cons_append, jsonSkipMembers, jsonString_text ha hk,
          jsonWs_mark hb (by decide : isSpace 58 = false), skipValue_ws hc, hval, depthMembers,
          fits_succ, Nat.max_zero]
        by_cases hf : Fits (depth + 1) v.depth
        · simp [hf, jsonWs_mark hd' (by decide : isSpace 125 = false)]
        · simp [hf]
      | @cons a k b c t d s es v l ha hk hb hc hv hd' hs =>
        have hval := ihv (depth + 1) t v (d ++ 44 :: (s ++ 125 :: r)) hd hv
          (numberStops_of_numEnd hv (numEnd_ws hd' (numEnd_cons (by decide))))
            (by simp at hn; omega)
        have hrest := ihm depth s l r hd hs (by simp at hn; omega)
        simp only [List.append_assoc, List.cons_append, jsonSkipMembers, jsonString_text ha hk,
          jsonWs_mark hb (by decide : isSpace 58 = false), skipValue_ws hc, hval, depthMembers,
          fits_succ, fits_max]
        by_cases hf : Fits (depth + 1) v.depth
        · simp [hf, jsonWs_mark hd' (by decide : isSpace 44 = false), hrest, fits_succ]
        · simp [hf]

theorem jsonSkipValue_stops {a t r : Bytes} {v : Syn} (ha : Ws a) (h : ValueText t v)
    (hr : NumberStops t r v) :
    jsonSkipValue (a ++ (t ++ r)) = if v.depth ≤ jsonMaxNesting then some r else none := by
  unfold jsonSkipValue
  rw [skipValue_ws ha]
  exact (skip_text _).1 0 t v r (Nat.zero_le _) h hr (by simp; omega)

theorem jsonSkipValue_text {t r : Bytes} {v : Syn} (h : ValueText t v) (hr : NumEnd r) :
    jsonSkipValue (t ++ r) = if v.depth ≤ jsonMaxNesting then some r else none :=
  jsonSkipValue_stops (a := []) (by simp [Ws]) h (numberStops_of_numEnd h hr)

theorem jsonRawValue_text {a t r : Bytes} {v : Syn} (ha : Ws a) (h : ValueText t v)
    (hr : NumEnd r) :
    jsonRawValue (a ++ (t ++ r)) =
      if v.depth ≤ jsonMaxNesting then some (t, r) else none := by
  rw [jsonRawValue, jsonWs_value ha h, jsonSkipValue_text h hr]
  split_ifs <;> simp

end Skipping

end Ds4.Json
