import Ds4.Bytes.Guard
import Ds4.Json.Agree

/-! Rewriting a text without changing its value: dropping blanks, escaping a `<` inside
strings, and writing a byte string as a literal. -/
namespace Ds4.Json
open Ds4.Search

private theorem hexVal_plain : ∀ c : UInt8, (hexVal c).isSome = true →
    c ≠ 34 ∧ c ≠ 92 ∧ c ≠ 60 ∧ c ≠ 32 := by
  decide +kernel

theorem hex4_plain {a b c d : UInt8} {u : ℕ} (h : hex4 a b c d = some u) :
    ∀ x ∈ [a, b, c, d], x ≠ 34 ∧ x ≠ 92 ∧ x ≠ 60 ∧ x ≠ 32 := by
  unfold hex4 at h
  split at h
  · next ha hb hc hd =>
    intro x hx
    apply hexVal_plain
    simp only [List.mem_cons, List.not_mem_nil, or_false] at hx
    rcases hx with rfl | rfl | rfl | rfl <;> simp_all
  · simp at h

section Minify

/-- The minifier turns `t` into `t'` whatever follows. -/
def MinifiesTo (t t' : Bytes) : Prop :=
  ∀ r, minifyLoop false false (t ++ r) = t' ++ minifyLoop false false r

theorem MinifiesTo.append {s t s' t' : Bytes} (hs : MinifiesTo s s') (ht : MinifiesTo t t') :
    MinifiesTo (s ++ t) (s' ++ t') := by
  intro r
  rw [List.append_assoc, hs, ht, List.append_assoc]

theorem minifiesTo_plain {t : Bytes} (h : ∀ c ∈ t, c ≠ 34 ∧ isSpace c = false) :
    MinifiesTo t t := by
  intro r
  induction t with
  | nil => rfl
  | cons c t ih =>
    obtain ⟨h34, hsp⟩ := h c (by simp)
    simp only [List.cons_append, minifyLoop, h34, hsp, ↓reduceIte, Bool.false_eq_true,
      ih fun d hd => h d (by simp [hd])]

theorem minifiesTo_ws {w : Bytes} (h : Ws w) : MinifiesTo w [] := by
  intro r
  induction w with
  | nil => rfl
  | cons c w ih =>
    have hc := h c (by simp)
    have : c ≠ 34 ∧ isSpace c = true := by
      simp only [isWs, Bool.or_eq_true, beq_iff_eq] at hc
      rcases hc with ((rfl | rfl) | rfl) | rfl <;> decide
    simp only [List.cons_append, minifyLoop, this, ↓reduceIte, ih fun d hd => h d (by simp [hd])]

theorem minifyLoop_plain {t : Bytes} (h : ∀ c ∈ t, c ≠ 34 ∧ c ≠ 92) (r : Bytes) :
    minifyLoop true false (t ++ r) = t ++ minifyLoop true false r := by
  induction t with
  | nil => rfl
  | cons c t ih =>
    obtain ⟨h34, h92⟩ := h c (by simp)
    have hne : (c != 34) = true := by simpa using h34
    simp [minifyLoop, h92, hne, ih fun d hd => h d (by simp [hd])]

theorem minifyLoop_body {t : Bytes} {es : List StrElem} (h : BodyText t es) (r : Bytes) :
    minifyLoop true false (t ++ 34 :: r) = t ++ 34 :: minifyLoop false false r := by
  induction h with
  | nil => simp [minifyLoop]
  | @raw b t _ hlo hq hb _ ih =>
    have hne : (b != 34) = true := by simpa using hq
    simp [minifyLoop, hb, hne, ih]
  | esc he _ ih => simp [minifyLoop, ih]
  | @unit a b c d u t _ hu _ ih =>
    have hplain := minifyLoop_plain (t := [a, b, c, d])
      (fun x hx => ⟨(hex4_plain hu x hx).1, (hex4_plain hu x hx).2.1⟩) (t ++ 34 :: r)
    have hesc (s : Bytes) : minifyLoop true false (92 :: 117 :: s) =
        92 :: 117 :: minifyLoop true false s := by simp [minifyLoop]
    simp only [List.cons_append, List.nil_append] at hplain
    simp only [List.cons_append, hesc, hplain, ih]

theorem minifiesTo_string {t : Bytes} {es : List StrElem} (h : StringText t es) :
    MinifiesTo t t := by
  obtain ⟨hb⟩ := h
  intro r
  simp [minifyLoop, minifyLoop_body hb]

theorem numberText_plain {t : Bytes} (h : NumberText t) :
    ∀ c ∈ t, isDigit c = true ∨ c = 45 ∨ c = 43 ∨ c = 46 ∨ c = 101 ∨ c = 69 := by
  obtain ⟨hsg, hint, hfr, hex⟩ := h
  next sg int fr ex =>
  intro c hc
  simp only [List.mem_append] at hc
  rcases hc with hc | hc | hc | hc
  · rcases hsg with rfl | rfl <;> simp_all
  · rcases hint with rfl | ⟨⟨-, hd⟩, -⟩
    · simp_all [isDigit]
    · exact .inl (hd c hc)
  · rcases hfr with rfl | ⟨d, ⟨-, hd⟩, rfl⟩
    · simp at hc
    · rcases List.mem_cons.mp hc with rfl | hc
      · simp
      · exact .inl (hd c hc)
  · rcases hex with rfl | ⟨e, g, d, he, hg, ⟨-, hd⟩, rfl⟩
    · simp at hc
    · simp only [List.mem_cons, List.mem_append] at hc
      rcases hc with rfl | hc | hc
      · rcases he with rfl | rfl <;> simp
      · rcases hg with rfl | rfl | rfl <;> simp_all
      · exact .inl (hd c hc)

private theorem number_char : ∀ c : UInt8,
    (isDigit c = true ∨ c = 45 ∨ c = 43 ∨ c = 46 ∨ c = 101 ∨ c = 69) →
      c ≠ 34 ∧ isSpace c = false ∧ c ≠ 60 := by
  decide +kernel

theorem minifiesTo_mark {c : UInt8} (h : c ≠ 34 ∧ isSpace c = false) : MinifiesTo [c] [c] :=
  minifiesTo_plain (by simpa using h)

private theorem word_plain : ∀ w ∈ [lit "null", lit "true", lit "false"], ∀ c ∈ w,
    c ≠ 34 ∧ isSpace c = false ∧ c ≠ 60 := by
  decide +kernel

theorem minifiesTo_word {w : Bytes} (h : w ∈ [lit "null", lit "true", lit "false"]) :
    MinifiesTo w w :=
  minifiesTo_plain fun c hc => ⟨(word_plain w h c hc).1, (word_plain w h c hc).2.1⟩

mutual
/-- Minifying keeps the value. -/
theorem minify_value {t : Bytes} {v : Syn} : ValueText t v → ∃ t', MinifiesTo t t' ∧ ValueText t' v
  | .null => ⟨_, minifiesTo_word (by simp), .null⟩
  | .true => ⟨_, minifiesTo_word (by simp), .true⟩
  | .false => ⟨_, minifiesTo_word (by simp), .false⟩
  | .num h => ⟨_, minifiesTo_plain fun c hc =>
      have := number_char c (numberText_plain h c hc)
      ⟨this.1, this.2.1⟩, .num h⟩
  | .str h => ⟨_, minifiesTo_string h, .str h⟩
  | .arrNil hw =>
      ⟨91 :: ([] ++ [93]), (minifiesTo_mark (by decide)).append
        ((minifiesTo_ws hw).append (minifiesTo_mark (by decide))), .arrNil (by simp [Ws])⟩
  | .arr h => by
      obtain ⟨t', ht, hi⟩ := minify_items h
      exact ⟨91 :: (t' ++ [93]), (minifiesTo_mark (by decide)).append
        (ht.append (minifiesTo_mark (by decide))), .arr hi⟩
  | .objNil hw =>
      ⟨123 :: ([] ++ [125]), (minifiesTo_mark (by decide)).append
        ((minifiesTo_ws hw).append (minifiesTo_mark (by decide))), .objNil (by simp [Ws])⟩
  | .obj h => by
      obtain ⟨t', ht, hm⟩ := minify_members h
      exact ⟨123 :: (t' ++ [125]), (minifiesTo_mark (by decide)).append
        (ht.append (minifiesTo_mark (by decide))), .obj hm⟩

theorem minify_items {t : Bytes} {vs : List Syn} :
    ItemsText t vs → ∃ t', MinifiesTo t t' ∧ ItemsText t' vs
  | .one ha hv hb => by
      obtain ⟨t', ht, hv⟩ := minify_value hv
      exact ⟨_, (minifiesTo_ws ha).append (ht.append (minifiesTo_ws hb)),
        .one (by simp [Ws]) hv (by simp [Ws])⟩
  | .cons ha hv hb hs => by
      obtain ⟨t', ht, hv⟩ := minify_value hv
      obtain ⟨s', hs', hi⟩ := minify_items hs
      exact ⟨_, (minifiesTo_ws ha).append (ht.append ((minifiesTo_ws hb).append
        ((minifiesTo_mark (by decide)).append hs'))),
        .cons (by simp [Ws]) hv (by simp [Ws]) hi⟩

theorem minify_members {t : Bytes} {l : List (List StrElem × Syn)} :
    MembersText t l → ∃ t', MinifiesTo t t' ∧ MembersText t' l
  | @MembersText.one _ k _ _ _ _ _ _ ha hk hb hc hv hd => by
      obtain ⟨t', ht, hv⟩ := minify_value hv
      exact ⟨[] ++ (k ++ ([] ++ ([58] ++ ([] ++ (t' ++ []))))),
        (minifiesTo_ws ha).append ((minifiesTo_string hk).append ((minifiesTo_ws hb).append
        ((minifiesTo_mark (c := 58) (by decide)).append ((minifiesTo_ws hc).append (ht.append
        (minifiesTo_ws hd)))))),
        @MembersText.one [] k [] [] t' [] _ _ (by simp [Ws]) hk (by simp [Ws]) (by simp [Ws]) hv
          (by simp [Ws])⟩
  | @MembersText.cons _ k _ _ _ _ _ _ _ _ ha hk hb hc hv hd hs => by
      obtain ⟨t', ht, hv⟩ := minify_value hv
      obtain ⟨s', hs', hm⟩ := minify_members hs
      exact ⟨[] ++ (k ++ ([] ++ ([58] ++ ([] ++ (t' ++ ([] ++ ([44] ++ s'))))))),
        (minifiesTo_ws ha).append ((minifiesTo_string hk).append ((minifiesTo_ws hb).append
        ((minifiesTo_mark (c := 58) (by decide)).append ((minifiesTo_ws hc).append (ht.append
        ((minifiesTo_ws hd).append ((minifiesTo_mark (c := 44) (by decide)).append hs'))))))),
        @MembersText.cons [] k [] [] t' [] s' _ _ _ (by simp [Ws]) hk (by simp [Ws]) (by simp [Ws])
          hv (by simp [Ws]) hm⟩
end

/-- The minified text of a value is a text of the same value without blanks around it. -/
theorem minifyLoop_text {t : Bytes} {v : Syn} (h : ValueText t v) :
    ValueText (minifyLoop false false t) v := by
  obtain ⟨t', ht, hv⟩ := minify_value h
  have := ht []
  simp only [List.append_nil, minifyLoop] at this
  rwa [this]

theorem jsonMinifyRawValue_text {t : Bytes} {v : Syn} (h : ValueText t v)
    (hd : v.depth ≤ jsonMaxNesting) : jsonMinifyRawValue t = minifyLoop false false t := by
  have := jsonRawValue_text (a := []) (r := []) (by simp [Ws]) h numEnd_nil
  simp only [List.nil_append, List.append_nil, hd, ↓reduceIte] at this
  simp [jsonMinifyRawValue, this]

theorem minifyLoop_sublist (b e : Bool) (s : Bytes) : (minifyLoop b e s).Sublist s := by
  fun_induction minifyLoop b e s with
  | case1 => exact .refl _
  | case2 e c s ih1 ih2 ih3 =>
    refine .cons_cons c ?_
    split_ifs
    · exact ih1
    · exact ih2
    · exact ih3
  | case3 e s ih => exact ih.cons_cons 34
  | case4 e c s _ _ ih => exact ih.cons c
  | case5 e c s _ _ ih => exact ih.cons_cons c

theorem jsonMinifyRawValue_sublist (s : Bytes) : (jsonMinifyRawValue s).Sublist s := by
  unfold jsonMinifyRawValue jsonRawValue
  cases jsonSkipValue (jsonWs s) with
  | none => exact .refl _
  | some r =>
    exact ((minifyLoop_sublist ..).trans (List.take_sublist ..)).trans
      (List.dropWhile_suffix _).sublist

end Minify

section Respelling

/-- The escape that stands for `<`. -/
def lessEscape : Bytes := lit "\\u003c"

/-- Two spellings of one literal: `<` written plainly or as an escape. -/
inductive Respelled : List StrElem → List StrElem → Prop
  | nil : Respelled [] []
  | keep {e es fs} : Respelled es fs → Respelled (e :: es) (e :: fs)
  | less {es fs} : Respelled es fs → Respelled (.byte 60 :: es) (.unit 60 :: fs)

theorem decode_unit_low {u : ℕ} (hu : isHigh u = false) (es : List StrElem) :
    decode (.unit u :: es) = utf8Put u ++ decode es := by
  rw [decode.eq_def]
  cases es with
  | nil => rfl
  | cons e es => cases e <;> simp [hu]

theorem decode_unit_byte (u : ℕ) (b : UInt8) (es : List StrElem) :
    decode (.unit u :: .byte b :: es) = utf8Put u ++ decode (.byte b :: es) := by
  rw [decode.eq_def]

theorem decode_unit_notLow {u v : ℕ} (hv : isLow v = false) (es : List StrElem) :
    decode (.unit u :: .unit v :: es) = utf8Put u ++ decode (.unit v :: es) := by
  rw [decode.eq_def]
  simp [hv]

theorem Respelled.decode_eq {es fs : List StrElem} (h : Respelled es fs) :
    decode fs = decode es := by
  fun_induction decode es generalizing fs with
  | case1 =>
    cases h
    rfl
  | case2 b es ih =>
    cases h with
    | keep h => rw [decode, ih h]
    | less h => rw [decode_unit_low (by decide), ih h]; rfl
  | case3 u v es huv ih =>
    cases h with
    | keep h =>
      cases h with
      | keep h => simp only [decode, huv, ↓reduceIte, ih h]
  | case4 u v es huv ih =>
    cases h with
    | keep h =>
      cases h with
      | keep h =>
        have := ih (.keep h)
        simp only [decode, huv, Bool.false_eq_true, ↓reduceIte] at this ⊢
        rw [this]
  | case5 u es hes ih =>
    cases h with
    | keep h =>
      rw [← ih h]
      cases h with
      | nil => rfl
      | @keep e _ fs h =>
        cases e with
        | byte b => exact decode_unit_byte ..
        | unit v => exact absurd rfl (hes v _)
      | less h => exact decode_unit_notLow (by decide) _

theorem respell_body {t u : Bytes} {es : List StrElem} (h : BodyText t es)
    (hr : Replaced 60 lessEscape t u) : ∃ fs, BodyText u fs ∧ Respelled es fs := by
  induction h generalizing u with
  | nil =>
    cases hr
    exact ⟨[], .nil, .nil⟩
  | raw hlo hq hb h ih =>
    cases hr with
    | keep hr =>
      obtain ⟨fs, hf, hs⟩ := ih hr
      exact ⟨_, .raw hlo hq hb hf, .keep hs⟩
    | swap hr =>
      obtain ⟨fs, hf, hs⟩ := ih hr
      exact ⟨.unit 60 :: fs, .unit (by decide) hf, .less hs⟩
  | @esc e x _ _ he h ih =>
    have hne : e ≠ 60 := by
      rintro rfl
      have : simpleEscape 60 = none := by decide
      simp [this] at he
    obtain ⟨u, rfl, hr1⟩ := hr.cons_inv (by decide)
    obtain ⟨u, rfl, hr2⟩ := hr1.cons_inv hne
    obtain ⟨fs, hf, hs⟩ := ih hr2
    exact ⟨_, .esc he hf, .keep hs⟩
  | @unit a b c d _ _ _ hu h ih =>
    have hp := hex4_plain hu
    obtain ⟨u, rfl, hr1⟩ := hr.cons_inv (by decide)
    obtain ⟨u, rfl, hr2⟩ := hr1.cons_inv (by decide)
    obtain ⟨u, rfl, hr3⟩ := hr2.cons_inv (hp a (by simp)).2.2.1
    obtain ⟨u, rfl, hr4⟩ := hr3.cons_inv (hp b (by simp)).2.2.1
    obtain ⟨u, rfl, hr5⟩ := hr4.cons_inv (hp c (by simp)).2.2.1
    obtain ⟨u, rfl, hr6⟩ := hr5.cons_inv (hp d (by simp)).2.2.1
    obtain ⟨fs, hf, hs⟩ := ih hr6
    exact ⟨_, .unit hu hf, .keep hs⟩

theorem respell_string {t u : Bytes} {es : List StrElem} (h : StringText t es)
    (hr : Replaced 60 lessEscape t u) :
    ∃ fs, StringText u fs ∧ decode fs = decode es := by
  obtain ⟨hb⟩ := h
  obtain ⟨u, rfl, hu⟩ := hr.bracket_inv (by decide) (by decide)
  obtain ⟨fs, hf, hs⟩ := respell_body hb hu
  exact ⟨fs, .mk hf, hs.decode_eq⟩

theorem replaced_ws {w u : Bytes} (hw : Ws w) (h : Replaced 60 lessEscape w u) : u = w :=
  h.eq_self fun hm => absurd (hw 60 hm) (by decide)

mutual
/-- Escaping some `<` of a value's text keeps the value. -/
theorem respell_value {t u : Bytes} {v : Syn} (hr : Replaced 60 lessEscape t u) :
    ValueText t v → ∃ v', ValueText u v' ∧ v'.map decode = v.map decode
  | .null => ⟨_, hr.eq_self (fun h => (word_plain (lit "null") (by simp) _ h).2.2 rfl) ▸ .null, rfl⟩
  | .true => ⟨_, hr.eq_self (fun h => (word_plain (lit "true") (by simp) _ h).2.2 rfl) ▸ .true, rfl⟩
  | .false =>
      ⟨_, hr.eq_self (fun h => (word_plain (lit "false") (by simp) _ h).2.2 rfl) ▸ .false, rfl⟩
  | .num h => by
      obtain rfl := hr.eq_self fun hm => (number_char 60 (numberText_plain h 60 hm)).2.2 rfl
      exact ⟨_, .num h, rfl⟩
  | .str h => by
      obtain ⟨fs, hf, hd⟩ := respell_string h hr
      exact ⟨.str fs, .str hf, by rw [Value.map, Value.map, hd]⟩
  | .arrNil hw => by
      obtain ⟨u, rfl, hu⟩ := hr.bracket_inv (by decide) (by decide)
      obtain rfl := replaced_ws hw hu
      exact ⟨_, .arrNil hw, rfl⟩
  | .arr h => by
      obtain ⟨u, rfl, hu⟩ := hr.bracket_inv (by decide) (by decide)
      obtain ⟨vs', hi, hm⟩ := respell_items hu h
      exact ⟨.arr vs', .arr hi, by rw [Value.map, Value.map, hm]⟩
  | .objNil hw => by
      obtain ⟨u, rfl, hu⟩ := hr.bracket_inv (by decide) (by decide)
      obtain rfl := replaced_ws hw hu
      exact ⟨_, .objNil hw, rfl⟩
  | .obj h => by
      obtain ⟨u, rfl, hu⟩ := hr.bracket_inv (by decide) (by decide)
      obtain ⟨l', hl, hm⟩ := respell_members hu h
      exact ⟨.obj l', .obj hl, by rw [Value.map, Value.map, hm]⟩

theorem respell_items {t u : Bytes} {vs : List Syn} (hr : Replaced 60 lessEscape t u) :
    ItemsText t vs → ∃ vs', ItemsText u vs' ∧ mapItems decode vs' = mapItems decode vs
  | .one ha hv hb => by
      obtain ⟨a, u, rfl, hra, hr1⟩ := hr.append_inv
      obtain ⟨w, b, rfl, hrv, hrb⟩ := hr1.append_inv
      obtain rfl := replaced_ws ha hra
      obtain rfl := replaced_ws hb hrb
      obtain ⟨v', hv', hm⟩ := respell_value hrv hv
      exact ⟨_, .one ha hv' hb, by simp only [mapItems, hm]⟩
  | .cons ha hv hb hs => by
      obtain ⟨a, u, rfl, hra, hr1⟩ := hr.append_inv
      obtain ⟨w, u, rfl, hrv, hr2⟩ := hr1.append_inv
      obtain ⟨b, u, rfl, hrb, hr3⟩ := hr2.append_inv
      obtain ⟨u, rfl, hrs⟩ := hr3.cons_inv (by decide)
      obtain rfl := replaced_ws ha hra
      obtain rfl := replaced_ws hb hrb
      obtain ⟨v', hv', hm⟩ := respell_value hrv hv
      obtain ⟨vs', hs', hms⟩ := respell_items hrs hs
      exact ⟨_, .cons ha hv' hb hs', by simp only [mapItems, hm, hms]⟩

theorem respell_members {t u : Bytes} {l : List (List StrElem × Syn)}
    (hr : Replaced 60 lessEscape t u) :
    MembersText t l → ∃ l', MembersText u l' ∧ mapMembers decode l' = mapMembers decode l
  | .one ha hk hb hc hv hd => by
      obtain ⟨a, u, rfl, hra, hr1⟩ := hr.append_inv
      obtain ⟨k, u, rfl, hrk, hr2⟩ := hr1.append_inv
      obtain ⟨b, u, rfl, hrb, hr3⟩ := hr2.append_inv
      obtain ⟨u, rfl, hr4⟩ := hr3.cons_inv (by decide)
      obtain ⟨c, u, rfl, hrc, hr5⟩ := hr4.append_inv
      obtain ⟨w, d, rfl, hrv, hrd⟩ := hr5.append_inv
      obtain rfl := replaced_ws ha hra
      obtain rfl := replaced_ws hb hrb
      obtain rfl := replaced_ws hc hrc
      obtain rfl := replaced_ws hd hrd
      obtain ⟨fs, hk', hkd⟩ := respell_string hk hrk
      obtain ⟨v', hv', hm⟩ := respell_value hrv hv
      exact ⟨_, .one ha hk' hb hc hv' hd, by simp only [mapMembers, hkd, hm]⟩
  | .cons ha hk hb hc hv hd hs => by
      obtain ⟨a, u, rfl, hra, hr1⟩ := hr.append_inv
      obtain ⟨k, u, rfl, hrk, hr2⟩ := hr1.append_inv
      obtain ⟨b, u, rfl, hrb, hr3⟩ := hr2.append_inv
      obtain ⟨u, rfl, hr4⟩ := hr3.cons_inv (by decide)
      obtain ⟨c, u, rfl, hrc, hr5⟩ := hr4.append_inv
      obtain ⟨w, u, rfl, hrv, hr6⟩ := hr5.append_inv
      obtain ⟨d, u, rfl, hrd, hr7⟩ := hr6.append_inv
      obtain ⟨u, rfl, hrs⟩ := hr7.cons_inv (by decide)
      obtain rfl := replaced_ws ha hra
      obtain rfl := replaced_ws hb hrb
      obtain rfl := replaced_ws hc hrc
      obtain rfl := replaced_ws hd hrd
      obtain ⟨fs, hk', hkd⟩ := respell_string hk hrk
      obtain ⟨v', hv', hm⟩ := respell_value hrv hv
      obtain ⟨l', hs', hms⟩ := respell_members hrs hs
      exact ⟨_, .cons ha hk' hb hc hv' hd hs', by simp only [mapMembers, hkd, hm, hms]⟩
end

end Respelling

section Escaping

/-- The element that `json_escape` writes for a byte. -/
def escapedElem (c : UInt8) : StrElem :=
  if c < 32 ∧ c ≠ 9 ∧ c ≠ 10 ∧ c ≠ 13 then .unit c.toNat else .byte c

private theorem control_hex : ∀ c : UInt8, c < 32 →
    hex4 48 48 (hexDigit (c.toNat / 16)) (hexDigit (c.toNat % 16)) = some c.toNat := by
  decide +kernel

private theorem control_utf8 : ∀ c : UInt8, c < 32 →
    utf8Put c.toNat = [c] ∧ isHigh c.toNat = false := by
  decide +kernel

theorem jsonEscape_body (s : Bytes) :
    BodyText (jsonEscapeFragmentN s) (s.map escapedElem) := by
  induction s with
  | nil => exact .nil
  | cons c s ih =>
    simp only [jsonEscapeFragmentN, List.flatMap_cons, List.map_cons, jsonEscapeChar] at ih ⊢
    split_ifs with hq hn hr ht hlt
    · have he : escapedElem c = .byte c := by rcases hq with rfl | rfl <;> rfl
      rw [he]
      exact .esc (by rcases hq with rfl | rfl <;> rfl) ih
    · subst hn
      exact .esc rfl ih
    · subst hr
      exact .esc rfl ih
    · subst ht
      exact .esc rfl ih
    · have he : escapedElem c = .unit c.toNat := by simp [escapedElem, *]
      rw [he]
      exact .unit (control_hex c hlt) ih
    · have he : escapedElem c = .byte c := by simp [escapedElem, hlt]
      rw [he]
      exact .raw (UInt8.not_lt.mp hlt) (fun h => hq (.inl h)) (fun h => hq (.inr h)) ih

theorem decode_escaped (s : Bytes) : decode (s.map escapedElem) = s := by
  induction s with
  | nil => rfl
  | cons c s ih =>
    rw [List.map_cons, escapedElem]
    split_ifs with hc
    · obtain ⟨hu, hh⟩ := control_utf8 c hc.1
      rw [decode_unit_low hh, hu, ih]
      rfl
    · rw [decode, ih]

theorem jsonEscape_text (s : Bytes) : StringText (jsonEscape s) (s.map escapedElem) :=
  .mk (jsonEscape_body s)

end Escaping

end Ds4.Json
