import Ds4.Json.Rewrite

/-! A value is skipped whatever comes behind it, as long as a number is not made longer; and the
minified text of a value. -/
namespace Ds4.Json

section Longest
variable {digit : UInt8 → Bool} {mark : UInt8} {s t u r y z : Bytes} {c : UInt8}

/-- The number is the longest one at its place: no longer text there is read whole by `strtod`. -/
def LongestNumber (t r : Bytes) : Prop := ∀ x, x ≠ [] → x <+: r → strtodEnd (t ++ x) ≠ some []

theorem dropWhile_head (h : s.dropWhile digit = c :: u) : digit c = false := by
  have hne : s.dropWhile digit ≠ [] := by
    rw [h]
    exact List.cons_ne_nil c u
  have hhead := List.head_dropWhile_not digit hne
  simpa only [h, List.head_cons] using hhead

theorem mem_takeWhile_digit (s : Bytes) : ∀ d ∈ s.takeWhile digit, digit d = true :=
  fun _ hd => List.mem_takeWhile_imp hd

theorem head_dropWhile (s : Bytes) : ∀ d ∈ (s.dropWhile digit).head?, digit d = false := by
  intro d hd
  cases hs : s.dropWhile digit with
  | nil =>
    rw [hs] at hd
    cases hd
  | cons c u =>
    rw [hs] at hd
    obtain rfl : c = d := Option.some.inj hd
    exact dropWhile_head hs

/-- The part that is taken as mantissa is taken in front of any rest that begins alike. -/
theorem mantissa_split (hpoint : digit 46 = false) (h : mantissa digit s = some r) :
    ∃ z, s = z ++ r ∧ ∀ q, (∀ d ∈ q.head?, d ∈ r.head?) → mantissa digit (z ++ q) = some q := by
  have hcut := (List.takeWhile_append_dropWhile (p := digit) (l := s)).symm
  have hdigits := @mem_takeWhile_digit digit s
  unfold mantissa at h
  split at h
  · next u hpt =>
    split_ifs at h with hnone
    obtain rfl := Option.some.inj h
    have hcut' := (List.takeWhile_append_dropWhile (p := digit) (l := u)).symm
    refine ⟨s.takeWhile digit ++ 46 :: u.takeWhile digit, ?_, fun q hq => ?_⟩
    · rw [List.append_assoc, List.cons_append, ← hcut', ← hpt]
      exact hcut
    · obtain ⟨hfirst, hbehind⟩ := takeWhile_digits (r := 46 :: (u.takeWhile digit ++ q)) hdigits
        (fun d hd => by obtain rfl : 46 = d := Option.some.inj hd
                        exact hpoint)
      obtain ⟨hfrac, hrest⟩ := takeWhile_digits (@mem_takeWhile_digit digit u)
        fun d hd => head_dropWhile u d (hq d hd)
      unfold mantissa
      rw [List.append_assoc, List.cons_append, hbehind]
      show (if _ ∧ _ then none else some _) = some q
      rw [hfirst, hfrac, hrest, if_neg hnone]
  · next hpt =>
    split_ifs at h with hnone
    obtain rfl := Option.some.inj h
    refine ⟨s.takeWhile digit, hcut, fun q hq => ?_⟩
    obtain ⟨hfirst, hbehind⟩ := takeWhile_digits hdigits fun d hd => head_dropWhile s d (hq d hd)
    unfold mantissa
    rw [hbehind]
    split
    · next u =>
      have hhead := hq 46 rfl
      cases hs : s.dropWhile digit with
      | nil =>
        rw [hs] at hhead
        cases hhead
      | cons c v =>
        rw [hs] at hhead
        obtain rfl : c = 46 := Option.some.inj hhead
        exact absurd hs (hpt v)
    · rw [hfirst, if_neg hnone]

theorem sign_cut (s : Bytes) : ∃ g, (g = [] ∨ g = [43] ∨ g = [45]) ∧ s = g ++ sign s := by
  unfold sign
  split
  · exact ⟨[43], Or.inr (Or.inl rfl), rfl⟩
  · exact ⟨[45], Or.inr (Or.inr rfl), rfl⟩
  · exact ⟨[], Or.inl rfl, rfl⟩

theorem sign_digit {g : Bytes} (hg : g = [] ∨ g = [43] ∨ g = [45]) (hc : isDigit c = true) :
    sign (g ++ c :: u) = c :: u := by
  rcases hg with rfl | rfl | rfl
  · rw [List.nil_append, sign.eq_def]
    split
    · next heq => exact absurd ((List.cons.inj heq).1 ▸ hc) (by decide)
    · next heq => exact absurd ((List.cons.inj heq).1 ▸ hc) (by decide)
    · rfl
  · rfl
  · rfl

/-- The part that is taken as exponent is taken whole. -/
theorem exponent_split (mark : UInt8) (s : Bytes) :
    ∃ z, s = z ++ exponent mark s ∧ exponent mark z = [] := by
  cases s with
  | nil => exact ⟨[], rfl, rfl⟩
  | cons e s =>
    by_cases hmark : lower e = mark ∧ (sign s).takeWhile isDigit ≠ []
    · have hend : exponent mark (e :: s) = (sign s).dropWhile isDigit := if_pos hmark
      obtain ⟨g, hg, hs⟩ := sign_cut s
      have hcut := (List.takeWhile_append_dropWhile (p := isDigit) (l := sign s)).symm
      have hdigits := @mem_takeWhile_digit isDigit (sign s)
      have hsigned : sign (g ++ (sign s).takeWhile isDigit) = (sign s).takeWhile isDigit := by
        cases hd : (sign s).takeWhile isDigit with
        | nil => exact absurd hd hmark.2
        | cons d ds => exact sign_digit hg (hdigits d (by rw [hd]; exact List.mem_cons_self))
      refine ⟨e :: (g ++ (sign s).takeWhile isDigit), ?_, ?_⟩
      · rw [hend, List.cons_append, List.append_assoc, ← hcut, ← hs]
      · obtain ⟨hall, hnil⟩ := takeWhile_digits (r := []) hdigits (by simp)
        rw [List.append_nil] at hall hnil
        show (if _ then _ else _) = _
        rw [hsigned, hall, if_pos hmark, hnil]
    · exact ⟨[], (if_neg hmark).symm, rfl⟩

theorem startsNoCase_prefix {l : Bytes} (h : startsNoCase l s = true) (hpre : s <+: t) :
    startsNoCase l t = true := by
  obtain ⟨u, rfl⟩ := hpre
  unfold startsNoCase at h ⊢
  have hlower := of_decide_eq_true h
  have hlen : (s.take l.length).length = l.length := by
    rw [← List.length_map (f := lower), hlower]
  rw [List.length_take] at hlen
  rw [List.take_append_of_le_length (by omega)]
  exact h

private theorem point_not_xdigit : isXDigit 46 = false := by decide

/-- What `strtod` takes where a digit stands it also takes when nothing comes behind. -/
theorem strtodEnd_split {sg w : Bytes} (hsg : sg = [] ∨ sg = [45]) (hc : isDigit c = true)
    (h : strtodEnd (sg ++ c :: w) = some y) :
    ∃ z, c :: w = c :: z ++ y ∧ strtodEnd (sg ++ c :: z) = some [] := by
  rw [strtodEnd_digit hsg hc] at h
  split_ifs at h with hhex
  · have hshort : startsNoCase (lit "0x") [c] = false := by
      unfold startsNoCase
      rw [decide_eq_false_iff_not]
      intro heq
      have hlen := congrArg List.length heq
      rw [List.length_map, List.length_take, List.length_singleton] at hlen
      exact absurd hlen (by decide)
    cases w with
    | nil =>
      rw [hshort] at hhex
      cases hhex
    | cons e w =>
      cases hm : mantissa isXDigit w with
      | none =>
        have hm' : mantissa isXDigit ((c :: e :: w).drop 2) = none := hm
        rw [hm'] at h
        obtain rfl := Option.some.inj h
        refine ⟨[], rfl, ?_⟩
        have hmant : mantissa isDigit [c] = some [] := by
          unfold mantissa
          simp [hc]
        rw [strtodEnd_digit hsg hc, hshort, if_neg Bool.false_ne_true, hmant]
        rfl
      | some r =>
        have hm' : mantissa isXDigit ((c :: e :: w).drop 2) = some r := hm
        rw [hm'] at h
        obtain rfl := Option.some.inj h
        obtain ⟨z, rfl, hz⟩ := mantissa_split point_not_xdigit hm
        obtain ⟨x, hx, hnil⟩ := exponent_split 112 r
        refine ⟨e :: (z ++ x), ?_, ?_⟩
        · rw [List.cons_append, List.cons_append, List.append_assoc, ← hx]
        · have hhead : ∀ d ∈ x.head?, d ∈ r.head? := by
            intro d hd
            rw [hx]
            cases x with
            | nil => cases hd
            | cons a x => exact hd
          have htaken : mantissa isXDigit ((c :: e :: (z ++ x)).drop 2) = some x := hz x hhead
          have hstill : startsNoCase (lit "0x") (c :: e :: (z ++ x)) = true := by
            have hfirst : startsNoCase (lit "0x") [c, e] = true := by
              unfold startsNoCase at hhex ⊢
              exact hhex
            exact startsNoCase_prefix hfirst ⟨z ++ x, rfl⟩
          rw [strtodEnd_digit hsg hc, hstill, if_pos rfl, htaken]
          exact congrArg some hnil
  · obtain ⟨r, hm, hy⟩ := Option.map_eq_some_iff.1 h
    obtain ⟨z, hcut, hz⟩ := mantissa_split (by decide) hm
    obtain ⟨x, hx, hnil⟩ := exponent_split 101 r
    have hhead : ∀ d ∈ x.head?, d ∈ r.head? := by
      intro d hd
      rw [hx]
      cases x with
      | nil => cases hd
      | cons a x => exact hd
    have htaken := hz x hhead
    cases z with
    | nil =>
      -- a mantissa takes the digit
      exact absurd (hz [] (by simp)) (by decide)
    | cons d z =>
      obtain ⟨rfl, hw⟩ := List.cons.inj hcut
      refine ⟨z ++ x, ?_, ?_⟩
      · rw [hw, ← List.cons_append, List.append_assoc, ← hy, ← hx]
        rfl
      · have hnot : startsNoCase (lit "0x") (c :: (z ++ x)) = false := by
          by_contra hs
          rw [Bool.not_eq_false] at hs
          apply hhex
          apply startsNoCase_prefix hs
          rw [hw, hx]
          exact ⟨exponent 101 r, by simp⟩
        rw [strtodEnd_digit hsg hc, hnot, if_neg Bool.false_ne_true, ← List.cons_append, htaken,
          Option.map_some, hnil]

theorem exponent_length (mark : UInt8) (s : Bytes) : (exponent mark s).length ≤ s.length := by
  obtain ⟨z, hs, -⟩ := exponent_split mark s
  have hlen := congrArg List.length hs
  rw [List.length_append] at hlen
  omega

/-- Where a JSON number stands, `strtod` takes it and maybe more. -/
theorem mantissa_number {i f : Bytes} (hi : Digits i) (hf : f = [] ∨ ∃ d, Digits d ∧ f = 46 :: d)
    (r : Bytes) : ∃ q, mantissa isDigit (i ++ (f ++ r)) = some q ∧ q.length ≤ r.length := by
  have hdrop : ∀ u : Bytes, (u.dropWhile isDigit).length ≤ u.length :=
    fun u => (List.dropWhile_suffix _).length_le
  have htake : ∀ u : Bytes, (i ++ u).takeWhile isDigit ≠ [] := by
    intro u
    rw [List.takeWhile_append_of_pos hi.2]
    exact fun h => hi.1 (List.append_eq_nil_iff.1 h).1
  have hbehind : ∀ u : Bytes, (i ++ u).dropWhile isDigit = u.dropWhile isDigit :=
    fun u => List.dropWhile_append_of_pos hi.2
  unfold mantissa
  rcases hf with rfl | ⟨d, hd, rfl⟩
  · rw [List.nil_append, hbehind]
    have hle := hdrop r
    split
    · next u hpt =>
      rw [if_neg fun h => htake r h.1]
      rw [hpt, List.length_cons] at hle
      exact ⟨_, rfl, (hdrop u).trans (by omega)⟩
    · rw [if_neg (htake r)]
      exact ⟨_, rfl, hle⟩
  · have hpoint : (46 :: d ++ r).dropWhile isDigit = 46 :: (d ++ r) := rfl
    rw [hbehind, hpoint]
    show ∃ q, (if _ ∧ _ then none else some _) = some q ∧ _
    rw [if_neg fun h => htake _ h.1, List.dropWhile_append_of_pos hd.2]
    exact ⟨_, rfl, hdrop r⟩

private theorem hex_mark : ∀ e : UInt8, lower e = 120 → e ≠ 46 ∧ e ≠ 101 ∧ e ≠ 69 := by
  decide +kernel

theorem strtodEnd_number (h : NumberText t) (r : Bytes) :
    ∃ y, strtodEnd (t ++ r) = some y ∧ y.length ≤ r.length := by
  obtain ⟨hsg, hint, hfr, hex⟩ := h
  next sg int fr ex =>
  obtain ⟨c, i, rfl, hc⟩ : ∃ c i, int = c :: i ∧ isDigit c = true := by
    rcases hint with rfl | ⟨⟨hne, hd⟩, -⟩
    · exact ⟨48, [], rfl, by decide⟩
    · cases int with
      | nil => exact absurd rfl hne
      | cons c i => exact ⟨c, i, rfl, hd c (by simp)⟩
  have hdig : Digits (c :: i) := by
    rcases hint with heq | ⟨hd, -⟩
    · rw [heq]
      exact ⟨by simp, by simp [isDigit]⟩
    · exact hd
  have htext : sg ++ (c :: i ++ (fr ++ ex)) ++ r = sg ++ c :: (i ++ (fr ++ (ex ++ r))) := by
    simp
  rw [htext, strtodEnd_digit hsg hc]
  split_ifs with hhex
  · obtain ⟨rfl, e, u, hs, hx⟩ := hex_behind_zero hc hint hhex
    obtain ⟨hpoint, he, hE⟩ := hex_mark e hx
    obtain rfl : fr = [] := by
      rcases hfr with rfl | ⟨d, -, rfl⟩
      · rfl
      · exact absurd (List.cons.inj hs).1.symm hpoint
    obtain rfl : ex = [] := by
      rcases hex with rfl | ⟨a, g, d, ha, -, -, rfl⟩
      · rfl
      · obtain rfl : a = e := (List.cons.inj hs).1
        rcases ha with rfl | rfl
        · exact absurd rfl he
        · exact absurd rfl hE
    rw [List.nil_append, List.nil_append] at hs
    subst hs
    have hbehind : (c :: ([] ++ ([] ++ ([] ++ e :: u)))).drop 2 = u := rfl
    rw [hbehind]
    cases hm : mantissa isXDigit u with
    | none => exact ⟨_, rfl, le_refl _⟩
    | some q =>
      obtain ⟨z, rfl, -⟩ := mantissa_split point_not_xdigit hm
      have hle := exponent_length 112 q
      refine ⟨_, rfl, ?_⟩
      rw [List.length_cons, List.length_append]
      omega
  · rcases hex with rfl | ⟨e, g, d, he, hg, hd, rfl⟩
    · obtain ⟨q, hq, hle⟩ := mantissa_number hdig hfr r
      rw [List.nil_append, show c :: (i ++ (fr ++ r)) = c :: i ++ (fr ++ r) from rfl, hq]
      exact ⟨_, rfl, (exponent_length 101 q).trans hle⟩
    · have hmant : mantissa isDigit (c :: (i ++ (fr ++ (e :: (g ++ d) ++ r)))) =
          some (e :: (g ++ d) ++ r) := by
        refine mantissa_text hdig hfr fun a ha => ?_
        obtain rfl : e = a := Option.some.inj ha
        rcases he with rfl | rfl <;> decide
      obtain ⟨a, d, rfl⟩ : ∃ a u, d = a :: u := List.exists_cons_of_ne_nil hd.1
      have ha : isDigit a = true := hd.2 a List.mem_cons_self
      have hsigned : sign (g ++ (a :: d) ++ r) = a :: d ++ r := by
        rw [List.append_assoc]
        exact sign_digit hg ha
      have hmark : lower e = 101 := by rcases he with rfl | rfl <;> decide
      have htaken : exponent 101 (e :: (g ++ a :: d) ++ r) = r.dropWhile isDigit := by
        rw [List.cons_append]
        show (if _ then _ else _) = _
        rw [hsigned, if_pos ⟨hmark, by rw [List.takeWhile_append_of_pos hd.2]; simp⟩,
          List.dropWhile_append_of_pos hd.2]
      rw [hmant, Option.map_some, htaken]
      exact ⟨_, rfl, (List.dropWhile_suffix _).length_le⟩

theorem numberText_digit (h : NumberText t) :
    ∃ sg c w, (sg = [] ∨ sg = [45]) ∧ isDigit c = true ∧ t = sg ++ c :: w := by
  obtain ⟨hsg, hint, -, -⟩ := h
  rcases hint with rfl | ⟨⟨hne, hd⟩, -⟩
  · exact ⟨_, 48, _, hsg, by decide, rfl⟩
  · obtain ⟨c, i, rfl⟩ := List.exists_cons_of_ne_nil hne
    exact ⟨_, c, _, hsg, hd c List.mem_cons_self, rfl⟩

/-- The skipper stops behind a number that is the longest at its place. -/
theorem numberStops_of_longest {v : Syn} (h : ValueText t v)
    (hlong : ∀ l, v = .num l → LongestNumber t r) : NumberStops t r v := by
  rintro l rfl
  cases h with
  | num hnum =>
    obtain ⟨y, hy, hle⟩ := strtodEnd_number hnum r
    obtain ⟨sg, c, w, hsg, hc, rfl⟩ := numberText_digit hnum
    rw [List.append_assoc, List.cons_append] at hy ⊢
    obtain ⟨z, hz, hwhole⟩ := strtodEnd_split hsg hc hy
    rw [jsonNumber_digit hsg hc, hy]
    rw [List.cons_append, List.cons.injEq] at hz
    have hmore : ∃ x, z = w ++ x ∧ r = x ++ y := by
      rcases List.append_eq_append_iff.1 hz.2 with hmore | ⟨x, hw, hyr⟩
      · exact hmore
      · have hlen := congrArg List.length hyr
        rw [List.length_append] at hlen
        obtain rfl : x = [] := List.length_eq_zero_iff.1 (by omega)
        exact ⟨[], by rw [hw, List.append_nil, List.append_nil], hyr.symm⟩
    obtain ⟨x, rfl, rfl⟩ := hmore
    have hnone : x = [] := by
      by_contra hne
      apply hlong _ rfl x hne (List.prefix_append x y)
      rw [List.append_assoc, List.cons_append]
      exact hwhole
    rw [hnone, List.nil_append]

end Longest

section Minified
variable {a t r : Bytes} {v : Syn}

/-- Minified text has nothing that is dropped. -/
theorem minifyLoop_idem (b e : Bool) (s : Bytes) :
    minifyLoop b e (minifyLoop b e s) = minifyLoop b e s := by
  fun_induction minifyLoop b e s with
  | case1 => rfl
  | case2 e c s ih1 ih2 ih3 =>
    rw [minifyLoop]
    congr 1
    split_ifs with he hc
    · exact ih1
    · exact ih2
    · exact ih3
  | case3 e s ih => rw [minifyLoop, if_pos rfl, ih]
  | case4 e c s _ _ ih => exact ih
  | case5 e c s hq hsp ih => rw [minifyLoop, if_neg hq, if_neg hsp, ih]

/-- A text has one value. -/
theorem valueText_unique {v' : Syn} (h : ValueText t v) (h' : ValueText t v') : v' = v := by
  have hread := readValue_complete (r := []) h numEnd_nil (le_refl _)
  rw [readValue_complete (r := []) h' numEnd_nil (le_refl _)] at hread
  exact (Prod.mk.inj (Option.some.inj hread)).1

theorem jsonMinifyRawValue_deep (h : ValueText t v) (hd : jsonMaxNesting < v.depth) :
    jsonMinifyRawValue t = t := by
  have hraw := jsonRawValue_text (a := []) (r := []) (by simp [Ws]) h numEnd_nil
  rw [if_neg (by omega), List.nil_append, List.append_nil] at hraw
  unfold jsonMinifyRawValue
  rw [hraw]

theorem jsonMinifyRawValue_value (h : ValueText t v) : ValueText (jsonMinifyRawValue t) v := by
  rcases Nat.lt_or_ge jsonMaxNesting v.depth with hdeep | hfits
  · rwa [jsonMinifyRawValue_deep h hdeep]
  · rw [jsonMinifyRawValue_text h hfits]
    exact minifyLoop_text h

/-- A value is skipped to its end exactly when its nesting fits, whatever comes behind it that does
not make a number longer; minifying keeps the value and does no more the second time. -/
theorem skip_and_minify (ha : Ws a) (h : ValueText t v)
    (hlong : ∀ l, v = .num l → LongestNumber t r) :
    (v.depth ≤ jsonMaxNesting → jsonSkipValue (a ++ (t ++ r)) = some r) ∧
      (jsonMaxNesting < v.depth → jsonSkipValue (a ++ (t ++ r)) = none) ∧
      (∀ v', ValueText (jsonMinifyRawValue t) v' ↔ v' = v) ∧
      jsonMinifyRawValue (jsonMinifyRawValue t) = jsonMinifyRawValue t := by
  have hskip := jsonSkipValue_stops ha h (numberStops_of_longest h hlong)
  have hmin := jsonMinifyRawValue_value h
  refine ⟨fun hfits => ?_, fun hdeep => ?_, fun v' => ?_, ?_⟩
  · rw [hskip, if_pos hfits]
  · rw [hskip, if_neg (by omega)]
  · constructor
    · exact valueText_unique hmin
    · rintro rfl
      exact hmin
  · rcases Nat.lt_or_ge jsonMaxNesting v.depth with hdeep | hfits
    · rw [jsonMinifyRawValue_deep hmin hdeep]
    · rw [jsonMinifyRawValue_text hmin hfits, jsonMinifyRawValue_text h hfits, minifyLoop_idem]

/-- An object with blanks, escapes and numbers. -/
def nestedText : Bytes :=
  lit "\x7b \"a\\n\" : [ 1 , \x7b\"b\":\"\\\"\" \x7d , -2.5e3 ] \x7d"

def nestedValue : Syn :=
  .obj [([.byte 97, .byte 10],
    .arr [.num (lit "1"), .obj [([.byte 98], .str [.byte 34])], .num (lit "-2.5e3")])]

theorem nestedText_value : ValueText nestedText nestedValue := by
  have hread : readValue 64 nestedText = some (nestedValue, []) := by decide +kernel
  obtain ⟨t, ht, hv⟩ := readValue_sound hread
  rw [List.append_nil] at ht
  rwa [ht]

/-- The object is skipped whatever is behind it, a number in front of a letter that would begin an
exponent. -/
theorem nested_skipped :
    jsonSkipValue ([10, 32] ++ (nestedText ++ lit ", 2")) = some (lit ", 2") ∧
      (∀ v', ValueText (jsonMinifyRawValue nestedText) v' ↔ v' = nestedValue) ∧
      jsonMinifyRawValue (jsonMinifyRawValue nestedText) = jsonMinifyRawValue nestedText ∧
      jsonSkipValue ([32] ++ (lit "1" ++ lit "ex")) = some (lit "ex") := by
  obtain ⟨hskip, -, hvalue, hidem⟩ := skip_and_minify (a := [10, 32]) (r := lit ", 2")
    (by simp [Ws, isWs]) nestedText_value fun l hl => by cases hl
  have hdigits : Digits [49] := ⟨by simp, by simp [isDigit]⟩
  have hnum : NumberText (lit "1") :=
    @NumberText.mk [] [49] [] [] (Or.inl rfl) (Or.inr ⟨hdigits, by decide⟩) (Or.inl rfl)
      (Or.inl rfl)
  have hlong : ∀ l, (Value.num (lit "1") : Syn) = .num l → LongestNumber (lit "1") (lit "ex") := by
    intro _ _ x hne hpre
    have hlen := hpre.length_le
    rw [List.prefix_iff_eq_take.1 hpre]
    have hpos : x.length ≠ 0 := fun h => hne (List.length_eq_zero_iff.1 h)
    obtain h1 | h2 : x.length = 1 ∨ x.length = 2 := by
      have htwo : (lit "ex").length = 2 := by decide
      omega
    · rw [h1]
      decide
    · rw [h2]
      decide
  exact ⟨hskip (by decide), hvalue, hidem,
    (skip_and_minify (by simp [Ws, isWs]) (.num hnum) hlong).1 (by decide)⟩

end Minified

end Ds4.Json
