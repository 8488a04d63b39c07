import Ds4.Dsml.ParseRender

/-! Which members of a call's arguments come back through the renderer and the parser. -/
namespace Ds4.Dsml
open Ds4.Search Ds4.Json

section Members

/-- The JSON that the parser writes for the value of a rendered argument. -/
def addedValue (a : JsonArg) : Bytes :=
  if typeRead a = lit "true" then jsonEscape (dsmlUnescapeText (bodyText a))
  else orNull (jsonMinifyRawValue (bodyText a))

def memberText (a : JsonArg) : Bytes := jsonEscape a.key ++ 58 :: 32 :: addedValue a

def joined : List JsonArg → Bytes
  | [] => []
  | [a] => memberText a
  | a :: args => memberText a ++ 44 :: 32 :: joined args

theorem joined_cons (a b : JsonArg) (args : List JsonArg) :
    joined (a :: b :: args) = memberText a ++ 44 :: 32 :: joined (b :: args) := rfl

theorem memberText_head (a : JsonArg) : ∃ u, memberText a = 34 :: u := ⟨_, rfl⟩

theorem joined_head (a : JsonArg) (args : List JsonArg) : ∃ u, joined (a :: args) = 34 :: u := by
  cases args with
  | nil => exact ⟨_, rfl⟩
  | cons b args => exact ⟨_, rfl⟩

theorem addArg_eq (acc : Bytes) (a : JsonArg) :
    addArg acc a = acc ++ (if acc = [] then [] else lit ", ") ++ memberText a := by
  have hsep : lit ": " = [58, 32] := rfl
  unfold addArg addParam toolCallJsonArgsAdd memberText addedValue
  simp only [Option.getD_some, Option.some.injEq, hsep]
  split_ifs <;> simp

theorem foldl_addArg (acc : Bytes) (a : JsonArg) (args : List JsonArg) :
    (a :: args).foldl addArg acc =
      acc ++ (if acc = [] then [] else lit ", ") ++ joined (a :: args) := by
  induction args generalizing acc a with
  | nil => rw [List.foldl_cons, addArg_eq]; rfl
  | cons b args ih =>
    rw [List.foldl_cons, ih, addArg_eq, joined_cons]
    obtain ⟨u, hu⟩ := memberText_head a
    have hsep : lit ", " = [44, 32] := rfl
    simp [hu, hsep]

theorem joined_eq (args : List JsonArg) : args.foldl addArg [] = joined args := by
  cases args with
  | nil => rfl
  | cons a args => rw [foldl_addArg]; simp

end Members

section Survival

/-- The member comes back as it was. -/
structure Survives (m : Member) : Prop where
  key : keepsUnits m.1 = true
  depth : m.2.depth ≤ jsonMaxNesting
  typed : ∀ es, m.2 = .str es → ¬ lit "string=" <:+ decode m.1
  units : ∀ es, m.2 = .str es → keepsUnits es = true
  terminator : ∀ es, m.2 = .str es → 0 ∉ decode es
  entities : ∀ es, m.2 = .str es → EntityFree (decode es)

theorem minify_any {t : Bytes} {v : Syn} (h : ValueText t v) :
    ValueText (jsonMinifyRawValue t) v := by
  by_cases hd : v.depth ≤ jsonMaxNesting
  · rw [jsonMinifyRawValue_text h hd]
    exact minifyLoop_text h
  · have := jsonRawValue_text (a := []) (r := []) (by simp [Ws]) h numEnd_nil
    simp only [List.nil_append, List.append_nil, hd, ↓reduceIte] at this
    simpa [jsonMinifyRawValue, this] using h

theorem orNull_value {t : Bytes} {v : Syn} (h : ValueText t v) : orNull t = t := by
  obtain ⟨c, u, rfl, -⟩ := valueText_head h
  rfl

/-- A value that is not a string comes back through the literal escaper. -/
theorem addedValue_literal {a : JsonArg} {v : Syn} (hs : a.isString = false)
    (hv : ValueText a.value v) :
    ∃ v', ValueText (addedValue a) v' ∧ v'.map decode = v.map decode := by
  obtain ⟨v', hv', hm⟩ := respell_value (replaced_guarded dsmlLong.paramEnd.tail a.value) hv
  refine ⟨v', ?_, hm⟩
  have htype : typeRead a ≠ lit "true" := by
    unfold typeRead
    simp only [hs]
    split_ifs <;> decide
  have hbody : bodyText a = dsmlJsonLiteral a.value := by simp [bodyText, hs]
  have hmin : ValueText (jsonMinifyRawValue (bodyText a)) v' := by
    rw [hbody]
    exact minify_any hv'
  rw [addedValue, if_neg htype, orNull_value hmin]
  exact hmin

theorem addedValue_string {a : JsonArg} (hs : a.isString = true)
    (hk : ¬ lit "string=" <:+ a.key) :
    addedValue a = jsonEscape (dsmlUnescapeText (dsmlParameterText a.value)) := by
  have htype : typeRead a = lit "true" := by simp [typeRead, hk, hs, isStringText]
  have hbody : bodyText a = dsmlParameterText a.value := by simp [bodyText, hs]
  rw [addedValue, if_pos htype, hbody]

theorem cstr_written {es : List StrElem} (hu : keepsUnits es = true) (h0 : 0 ∉ decode es) :
    cstr (written es) = decode es := by
  rw [written_eq_iff.mpr hu, cstr_eq_self h0]

theorem key_eq_iff {es : List StrElem} (h0 : 0 ∉ decode es) :
    cstr (written es) = decode es ↔ keepsUnits es = true := by
  refine ⟨fun h => ?_, fun h => cstr_written h h0⟩
  by_contra hk
  have hlt := (written_length_le es).2 (by simpa using hk)
  have hle := cstr_length_le (written es)
  rw [h] at hle
  omega

/-- A string comes back exactly when nothing is lost on the way: no escape, nothing behind a
zero byte, no entity. -/
theorem string_eq_iff {es : List StrElem} :
    dsmlUnescapeText (dsmlParameterText (cstr (written es))) = decode es ↔
      keepsUnits es = true ∧ 0 ∉ decode es ∧ EntityFree (decode es) := by
  constructor
  · intro h
    have h1 := unescape_parameterText_length (cstr (written es))
    have h2 := cstr_length_le (written es)
    have h3 := written_length_le es
    rw [h] at h1
    have hu : keepsUnits es = true := by
      by_contra hk
      have := h3.2 (by simpa using hk)
      omega
    rw [written_eq_iff.mpr hu] at h h2 h1
    have hc : cstr (decode es) = decode es :=
      (List.takeWhile_prefix _).eq_of_length (le_antisymm h2 h1)
    rw [hc] at h
    exact ⟨hu, cstr_eq_self_iff.mp hc, (unescape_parameterText_iff _).mp h⟩
  · rintro ⟨hu, h0, he⟩
    rw [cstr_written hu h0]
    exact (unescape_parameterText_iff _).mpr he

/-- What a surviving member becomes. -/
theorem memberText_of_survives {m : Member} {a : JsonArg} (ha : ArgOf m a) (h : Survives m)
    (h0 : 0 ∉ decode m.1) :
    ∃ ks v', StringText (jsonEscape a.key) ks ∧ ValueText (addedValue a) v' ∧
      decode ks = decode m.1 ∧ v'.map decode = m.2.map decode := by
  obtain ⟨es, v⟩ := m
  obtain ⟨hkey, hval⟩ := ha
  have hk : a.key = decode es := hkey.trans (cstr_written h.key h0)
  by_cases hs : ∃ fs, v = .str fs
  · obtain ⟨fs, rfl⟩ := hs
    obtain ⟨hs, hv⟩ := hval
    have hadd := addedValue_string hs (by rw [hk]; exact h.typed fs rfl)
    have htext := ValueText.str (jsonEscape_text (dsmlUnescapeText (dsmlParameterText a.value)))
    rw [← hadd] at htext
    refine ⟨_, _, jsonEscape_text a.key, htext, ?_, ?_⟩
    · rw [decode_escaped, hk]
    · rw [Value.map, Value.map, decode_escaped, hv,
        string_eq_iff.mpr ⟨h.units fs rfl, h.terminator fs rfl, h.entities fs rfl⟩]
  · have hlit : a.isString = false ∧ ValueText a.value v := by
      cases v with
      | str fs => exact absurd ⟨fs, rfl⟩ hs
      | null | bool | num | arr | obj => exact hval
    obtain ⟨v', hv', hm⟩ := addedValue_literal hlit.1 hlit.2
    exact ⟨_, v', jsonEscape_text a.key, hv', by rw [decode_escaped, hk], hm⟩

theorem membersText_ws {w t : Bytes} {l : List Member} (hw : Ws w) (h : MembersText t l) :
    MembersText (w ++ t) l := by
  have happ {a : Bytes} (ha : Ws a) : Ws (w ++ a) := fun c hc =>
    (List.mem_append.mp hc).elim (hw c) (ha c)
  cases h with
  | one ha hk hb hc hv hd =>
    rw [← List.append_assoc]
    exact .one (happ ha) hk hb hc hv hd
  | cons ha hk hb hc hv hd hs =>
    rw [← List.append_assoc]
    exact .cons (happ ha) hk hb hc hv hd hs

theorem joined_of_survives {l : List Member} {args : List JsonArg}
    (hall : List.Forall₂ ArgOf l args) (hne : l ≠ []) (h : ∀ m ∈ l, Survives m ∧ 0 ∉ decode m.1) :
    ∃ l', MembersText (joined args) l' ∧ mapMembers decode l' = mapMembers decode l := by
  induction hall with
  | nil => exact absurd rfl hne
  | @cons m a l args ha hall ih =>
    obtain ⟨hm, h0⟩ := h m (by simp)
    obtain ⟨ks, v', hk, hv, hkd, hvd⟩ := memberText_of_survives ha hm h0
    cases hall with
    | nil =>
      refine ⟨[(ks, v')], ?_, ?_⟩
      · have := @MembersText.one [] _ [] [32] _ [] _ _ (by simp [Ws]) hk (by simp [Ws])
          (by simp [Ws, isWs]) hv (by simp [Ws])
        simpa [joined, memberText] using this
      · obtain ⟨es, v⟩ := m
        simp only [mapMembers, hkd, hvd]
    | @cons m2 b l args hb hall =>
      obtain ⟨l', hl', hmap⟩ := ih (by simp) fun m hm => h m (List.mem_cons_of_mem _ hm)
      have hl'' := membersText_ws (w := [32]) (by simp [Ws, isWs]) hl'
      refine ⟨(ks, v') :: l', ?_, ?_⟩
      · have := @MembersText.cons [] _ [] [32] _ [] _ _ _ _ (by simp [Ws]) hk (by simp [Ws])
          (by simp [Ws, isWs]) hv (by simp [Ws]) hl''
        simpa [joined_cons, memberText] using this
      · obtain ⟨es, v⟩ := m
        simp only [mapMembers] at hmap ⊢
        rw [hkd, hvd, hmap]

end Survival

section Counting

theorem decode_unit_count (u : ℕ) (es : List StrElem) :
    (decode (.unit u :: es)).count 34 + (decode (.unit u :: es)).count 92 ≤
      1 + ((decode es).count 34 + (decode es).count 92) := by
  have hcount (u : ℕ) := utf8Put_count_le u (by decide : (34 : UInt8) < 128)
    (by decide : (92 : UInt8) < 128) (by decide)
  have hu := hcount u
  cases es with
  | nil => simpa [decode] using hu
  | cons e es =>
    cases e with
    | byte b =>
      rw [decode_unit_byte, List.count_append, List.count_append]
      omega
    | unit v =>
      by_cases hp : (isHigh u && isLow v) = true
      · have hlow := not_isHigh_of_isLow (Bool.and_eq_true _ _ ▸ hp).2
        have hc := hcount (combine u v)
        simp only [decode, hp, ↓reduceIte, decode_unit_low hlow, List.count_append]
        omega
      · have hstep : decode (.unit u :: .unit v :: es) = utf8Put u ++ decode (.unit v :: es) := by
          rw [decode.eq_def]
          simp [hp]
        rw [hstep, List.count_append, List.count_append]
        omega

/-- Every decoded quote or backslash costs a backslash in the literal. -/
theorem slashes_body {t : Bytes} {es : List StrElem} (h : BodyText t es) :
    (decode es).count 34 + (decode es).count 92 ≤ t.count 92 := by
  induction h with
  | nil => simp [decode]
  | raw hlo hq hb _ ih =>
    simp only [decode, List.count_cons_of_ne hq, List.count_cons_of_ne hb]
    exact ih
  | @esc e x t es he _ ih =>
    have hx : (decode (.byte x :: es)).count 34 + (decode (.byte x :: es)).count 92 ≤
        1 + ((decode es).count 34 + (decode es).count 92) := by
      simp only [decode, List.count_cons, beq_iff_eq]
      split_ifs with h1 h2
      · rw [h1] at h2
        exact absurd h2 (by decide)
      all_goals omega
    rw [List.count_cons_self]
    have := List.count_le_count_cons (a := 92) (b := e) (l := t)
    omega
  | @unit a b c d u t es hu _ ih =>
    have hx := decode_unit_count u es
    have hsub : t.count 92 ≤ (117 :: a :: b :: c :: d :: t).count 92 :=
      List.Sublist.count_le 92 (List.suffix_append [117, a, b, c, d] t).sublist
    rw [List.count_cons_self]
    omega

theorem decode_count_tail (v : ℕ) (es : List StrElem) {c : UInt8} (hc : c < 128) :
    (decode es).count c ≤ (decode (.unit v :: es)).count c := by
  cases es with
  | nil => simp [decode]
  | cons e es =>
    cases e with
    | byte b =>
      rw [decode_unit_byte, List.count_append]
      omega
    | unit w =>
      by_cases hp : (isHigh v && isLow w) = true
      · have hw := (Bool.and_eq_true _ _ ▸ hp).2
        have hlow : 0x7f < w := by
          simp only [isLow, Bool.and_eq_true, decide_eq_true_eq] at hw
          omega
        rw [decode_unit_low (not_isHigh_of_isLow hw), List.count_append,
          utf8Put_count_high hlow hc]
        simp [decode, hp, List.count_append]
      · have hstep : decode (.unit v :: .unit w :: es) = utf8Put v ++ decode (.unit w :: es) := by
          rw [decode.eq_def]
          simp [hp]
        rw [hstep, List.count_append]
        omega

/-- What `json_string` writes holds no more of an ASCII character than the literal. -/
theorem written_count_le (es : List StrElem) {c : UInt8} (hc : c < 128) :
    (written es).count c ≤ (decode es).count c := by
  fun_induction written es with
  | case1 => simp [decode]
  | case2 b es ih =>
    simp only [decode, List.count_cons]
    omega
  | case3 u v es hu ih =>
    cases hv : isLow v with
    | true => simpa [decode, hu, hv, List.count_append] using ih
    | false =>
      have hrest := decode_count_tail v es hc
      simp only [decode, hu, hv, Bool.and_false, Bool.false_eq_true, ↓reduceIte,
        List.count_append]
      omega
  | case4 u v es hu ih => simpa [decode, hu, List.count_append] using ih
  | case5 u es hes ih =>
    cases es with
    | nil => simp [decode, written]
    | cons e es =>
      cases e with
      | byte b =>
        rw [decode_unit_byte, List.count_append, List.count_append]
        omega
      | unit v => exact absurd rfl (hes v es)

/-- A quote inside a literal does not follow a blank. -/
theorem body_no_open {t : Bytes} {es : List StrElem} (h : BodyText t es) :
    ∀ p q, t ≠ p ++ 32 :: 34 :: q := by
  induction h with
  | nil => intro p q h; simp at h
  | @raw b t _ hlo hq hb h ih =>
    intro p q heq
    cases p with
    | nil =>
      obtain ⟨rfl, rfl⟩ := List.cons.inj heq
      cases h with
      | raw _ hq _ _ => exact hq rfl
    | cons c p =>
      obtain ⟨rfl, rfl⟩ := List.cons.inj heq
      exact ih p q rfl
  | @esc e x t _ he h ih =>
    intro p q heq
    have hne : e ≠ 32 := by
      rintro rfl
      have : simpleEscape 32 = none := by decide
      simp [this] at he
    match p, heq with
    | [], heq => exact absurd (List.cons.inj heq).1 (by decide)
    | [_], heq => exact hne (List.cons.inj (List.cons.inj heq).2).1
    | _ :: _ :: p, heq => exact ih p q (List.cons.inj (List.cons.inj heq).2).2
  | @unit a b c d _ t _ hu h ih =>
    intro p q heq
    have hplain := hex4_plain hu
    match p, heq with
    | [], heq => exact absurd (List.cons.inj heq).1 (by decide)
    | [_], heq => exact absurd (List.cons.inj (List.cons.inj heq).2).1 (by decide)
    | [_, _], heq =>
      simp only [List.cons_append, List.nil_append, List.cons.injEq] at heq
      exact (hplain a (by simp)).2.2.2 heq.2.2.1
    | [_, _, _], heq =>
      simp only [List.cons_append, List.nil_append, List.cons.injEq] at heq
      exact (hplain b (by simp)).2.2.2 heq.2.2.2.1
    | [_, _, _, _], heq =>
      simp only [List.cons_append, List.nil_append, List.cons.injEq] at heq
      exact (hplain c (by simp)).2.2.2 heq.2.2.2.2.1
    | [_, _, _, _, _], heq =>
      simp only [List.cons_append, List.nil_append, List.cons.injEq] at heq
      exact (hplain d (by simp)).2.2.2 heq.2.2.2.2.2.1
    | _ :: _ :: _ :: _ :: _ :: _ :: p, heq =>
      simp only [List.cons_append, List.cons.injEq] at heq
      exact ih p q heq.2.2.2.2.2.2

theorem parameterText_count {c : UInt8} (hc : c = 34 ∨ c = 92) (s : Bytes) :
    (dsmlParameterText s).count c = s.count c := by
  have hrep : (lit "&lt;").count c = 0 := by rcases hc with rfl | rfl <;> decide
  have hne : c ≠ 60 := by rcases hc with rfl | rfl <;> decide
  induction s with
  | nil => rfl
  | cons a s ih =>
    by_cases hp : dsmlLong.paramEnd <+: a :: s
    · have hg : dsmlParameterText (a :: s) = lit "&lt;" ++ dsmlParameterText s := if_pos hp
      have hhead : 60 :: dsmlLong.paramEnd.tail <+: a :: s := hp
      obtain rfl : 60 = a := (List.cons_prefix_cons.mp hhead).1
      rw [hg, List.count_append, hrep, List.count_cons_of_ne (Ne.symm hne), ih, Nat.zero_add]
    · have hg : dsmlParameterText (a :: s) = a :: dsmlParameterText s := if_neg hp
      rw [hg, List.count_cons, List.count_cons, ih]

theorem added_count {c : UInt8} (hc : c = 34 ∨ c = 92) (s : Bytes) :
    (orNull (jsonMinifyRawValue (dsmlParameterText s))).count c ≤ s.count c := by
  have hsub := (jsonMinifyRawValue_sublist (dsmlParameterText s)).count_le c
  rw [parameterText_count hc] at hsub
  cases hm : jsonMinifyRawValue (dsmlParameterText s) with
  | nil => rcases hc with rfl | rfl <;> exact Nat.zero_le _
  | cons a m => rwa [hm] at hsub

/-- What may follow the last value read. -/
def Closes (tail : Bytes) : Prop := tail = [125] ∨ ∃ z, tail = 44 :: 32 :: 34 :: z

/-- A literal read from `A` before a closing tail takes its backslashes from `A`. -/
theorem body_within {A tail b r : Bytes} {es : List StrElem} (ht : Closes tail)
    (h : A ++ tail = b ++ 34 :: r) (hb : BodyText b es) : b.count 92 ≤ A.count 92 := by
  rcases List.append_eq_append_iff.mp h with ⟨e, rfl, he⟩ | ⟨e, rfl, -⟩
  · rw [List.count_append]
    rcases ht with rfl | ⟨z, rfl⟩
    · match e, he with
      | [], he => exact absurd (List.cons.inj he).1 (by decide)
      | _ :: e, he => simp at he
    · match e, he with
      | [], he => exact absurd (List.cons.inj he).1 (by decide)
      | [_], he => exact absurd (List.cons.inj (List.cons.inj he).2).1 (by decide)
      | [x, y], he =>
        simp only [List.cons_append, List.nil_append, List.cons.injEq] at he
        obtain ⟨rfl, rfl, -⟩ := he
        exact le_of_eq rfl
      | x :: y :: w :: e, he =>
        simp only [List.cons_append, List.cons.injEq] at he
        obtain ⟨rfl, rfl, rfl, -⟩ := he
        exact absurd (by simp) (body_no_open hb (A ++ [44]) e)
  · rw [List.count_append]
    omega

/-- A string argument behind a hidden type is never read as the string it was: its quotes
would need more backslashes than it has. -/
theorem hidden_not_string {a : JsonArg} {es : List StrElem} {n : ℕ} {tail r : Bytes} {v : Syn}
    (hs : a.isString = true) (hv : a.value = cstr (written es)) (hk : lit "string=" <:+ a.key)
    (ht : Closes tail) (hread : readValue n (skipWs (addedValue a ++ tail)) = some (v, r)) :
    v.map decode ≠ .str (decode es) := by
  intro heq
  obtain ⟨fs, rfl, hfs⟩ : ∃ fs, v = .str fs ∧ decode fs = decode es := by
    cases v <;> simp_all [Value.map]
  have hadd : addedValue a = orNull (jsonMinifyRawValue (dsmlParameterText a.value)) := by
    have htype : typeRead a ≠ lit "true" := by
      rw [typeRead, if_pos hk]
      decide
    rw [addedValue, if_neg htype, bodyText, if_pos hs]
  obtain ⟨t, hsplit, hvt⟩ := readValue_sound hread
  obtain ⟨hb⟩ := valueText_str hvt
  next b =>
  obtain ⟨w, hw, hA⟩ := skipWs_split (addedValue a ++ tail)
  rw [hsplit] at hA
  have hws : ∀ c ∈ w, c ≠ 125 ∧ c ≠ 44 := fun c hc => by
    have := hw c hc
    constructor <;> rintro rfl <;> exact absurd this (by decide)
  have htail : ∃ c z, tail = c :: z ∧ c ≠ 34 ∧ (c = 125 ∨ c = 44) := by
    rcases ht with rfl | ⟨z, rfl⟩
    · exact ⟨125, [], rfl, by decide, .inl rfl⟩
    · exact ⟨44, _, rfl, by decide, .inr rfl⟩
  obtain ⟨c, z, rfl, hc34, hc⟩ := htail
  obtain ⟨d, hd, hrest⟩ : ∃ d, addedValue a = w ++ 34 :: d ∧ d ++ c :: z = b ++ 34 :: r := by
    rcases List.append_eq_append_iff.mp hA with ⟨e, rfl, he⟩ | ⟨e, hAw, he⟩
    · cases e with
      | nil => exact absurd (List.cons.inj he).1 hc34
      | cons x e =>
        obtain rfl : c = x := (List.cons.inj he).1
        have := hws c (by simp)
        rcases hc with rfl | rfl
        · exact absurd rfl this.1
        · exact absurd rfl this.2
    · cases e with
      | nil => exact absurd (List.cons.inj he).1.symm hc34
      | cons x e =>
        simp only [List.cons_append, List.cons.injEq] at he
        obtain ⟨rfl, he⟩ := he
        exact ⟨e, hAw, by simpa using he.symm⟩
  have h34 : 1 ≤ (addedValue a).count 34 := by
    rw [hd, List.count_append, List.count_cons_self]
    omega
  have h92 : b.count 92 ≤ (addedValue a).count 92 := by
    have := body_within ht hrest hb
    rw [hd, List.count_append, List.count_cons_of_ne (by decide)]
    omega
  have hbound (c : UInt8) (hc : c = 34 ∨ c = 92) :
      (addedValue a).count c ≤ (decode es).count c := by
    have h1 := added_count hc a.value
    have h2 := (List.takeWhile_prefix (l := written es) (· != 0)).sublist.count_le c
    have h3 := written_count_le es (c := c) (by rcases hc with rfl | rfl <;> decide)
    rw [hv] at h1
    rw [hadd, hv]
    exact h1.trans (h2.trans h3)
  have hcost := slashes_body hb
  have hq := hbound 34 (.inl rfl)
  have hbs := hbound 92 (.inr rfl)
  rw [hfs] at hcost
  omega

end Counting

section Reading

/-- Either the value is a string whose type is hidden, or it is written as valid JSON that
is the member's value only if the member survives. -/
theorem added_cases {m : Member} {a : JsonArg} (ha : ArgOf m a)
    (hd : m.2.depth ≤ jsonMaxNesting) (h0 : 0 ∉ decode m.1) :
    (∃ es, m.2 = .str es ∧ a.isString = true ∧ a.value = cstr (written es) ∧
      lit "string=" <:+ a.key) ∨
    ∃ v, ValueText (addedValue a) v ∧
      (v.map decode = m.2.map decode → a.key = decode m.1 → Survives m) := by
  obtain ⟨ks, v⟩ := m
  obtain ⟨hkey, hval⟩ := ha
  have hkeep (hk : a.key = decode ks) : keepsUnits ks = true :=
    (key_eq_iff h0).mp (hkey.symm.trans hk)
  by_cases hs : ∃ es, v = .str es
  · obtain ⟨es, rfl⟩ := hs
    obtain ⟨hs, hv⟩ := hval
    by_cases hk : lit "string=" <:+ a.key
    · exact .inl ⟨es, rfl, hs, hv, hk⟩
    · refine .inr ⟨.str ((dsmlUnescapeText (dsmlParameterText a.value)).map escapedElem), ?_,
        fun heq hkd => ?_⟩
      · rw [addedValue_string hs hk]
        exact .str (jsonEscape_text _)
      · rw [Value.map, Value.map, decode_escaped, hv, Value.str.injEq, string_eq_iff] at heq
        refine ⟨hkeep hkd, hd, fun fs hfs => hkd ▸ hk, fun fs hfs => ?_, fun fs hfs => ?_,
          fun fs hfs => ?_⟩ <;> obtain rfl := Value.str.inj hfs
        · exact heq.1
        · exact heq.2.1
        · exact heq.2.2
  · have hlit : a.isString = false ∧ ValueText a.value v := by
      cases v with
      | str fs => exact absurd ⟨fs, rfl⟩ hs
      | null | bool | num | arr | obj => exact hval
    obtain ⟨v', hv', -⟩ := addedValue_literal hlit.1 hlit.2
    have hno (fs) (hfs : v = .str fs) : False := hs ⟨fs, hfs⟩
    exact .inr ⟨v', hv', fun _ hkd => ⟨hkeep hkd, hd, fun fs h => (hno fs h).elim,
      fun fs h => (hno fs h).elim, fun fs h => (hno fs h).elim, fun fs h => (hno fs h).elim⟩⟩

/-- What `readMembers` does behind a member's value. -/
def memberEnd (n : ℕ) (key : List StrElem) (v : Syn) (r : Bytes) : Option (List Member × Bytes) :=
  match skipWs r with
  | 125 :: r' => some ([(key, v)], r')
  | 44 :: r' => (readMembers n r').map fun p => ((key, v) :: p.1, p.2)
  | _ => none

theorem readMembers_member (n : ℕ) (a : JsonArg) (tail : Bytes) :
    readMembers (n + 1) (memberText a ++ tail) =
      (readValue n (skipWs (addedValue a ++ tail))).bind fun p =>
        memberEnd n (a.key.map escapedElem) p.1 p.2 := by
  have hkey := readString_complete (r := 58 :: 32 :: (addedValue a ++ tail))
    (jsonEscape_text a.key)
  have hws : skipWs (memberText a ++ tail) =
      jsonEscape a.key ++ 58 :: 32 :: (addedValue a ++ tail) := by
    rw [memberText, List.append_assoc]
    rfl
  have hcolon (s : Bytes) : skipWs (58 :: s) = 58 :: s := rfl
  have hblank (s : Bytes) : skipWs (32 :: s) = skipWs s := rfl
  simp only [readMembers, hws, hkey, hcolon, hblank]
  cases readValue n (skipWs (addedValue a ++ tail)) <;> rfl

theorem readMembers_blank (n : ℕ) (s : Bytes) : readMembers n (32 :: s) = readMembers n s := by
  cases n with
  | zero => rfl
  | succ n =>
    have hblank : skipWs (32 :: s) = skipWs s := rfl
    simp only [readMembers, hblank]

theorem numEnd_closes {tail : Bytes} (h : Closes tail) : NumEnd tail := by
  rcases h with rfl | ⟨z, rfl⟩ <;> exact numEnd_cons (by decide)

theorem survives_of_value {m : Member} {a : JsonArg} {n : ℕ} {tail r : Bytes} {v : Syn}
    (ha : ArgOf m a) (hm : m.2.depth ≤ jsonMaxNesting ∧ 0 ∉ decode m.1) (ht : Closes tail)
    (hn : (addedValue a).length ≤ n)
    (hread : readValue n (skipWs (addedValue a ++ tail)) = some (v, r))
    (hmap : v.map decode = m.2.map decode) (hkey : a.key = decode m.1) :
    Survives m ∧ r = tail := by
  rcases added_cases ha hm.1 hm.2 with ⟨es, hes, hs, hv, hk⟩ | ⟨v', hv', hsurv⟩
  · rw [hes] at hmap
    exact absurd hmap (hidden_not_string hs hv hk ht hread)
  · have hws := skipWs_value (a := []) (r := tail) (by simp [Ws]) hv'
    simp only [List.nil_append] at hws
    rw [hws, readValue_complete hv' (numEnd_closes ht) hn] at hread
    obtain ⟨rfl, rfl⟩ := Prod.mk.inj (Option.some.inj hread)
    exact ⟨hsurv hmap hkey, rfl⟩

/-- If the written members read as the ones they came from, each of them survives. -/
theorem survives_of_read {l : List Member} {args : List JsonArg} (hall : List.Forall₂ ArgOf l args)
    (hne : l ≠ []) (hl : ∀ m ∈ l, m.2.depth ≤ jsonMaxNesting ∧ 0 ∉ decode m.1) {n : ℕ}
    {l' : List Member} {r : Bytes} (hn : (joined args).length + 1 ≤ n)
    (hread : readMembers n (joined args ++ [125]) = some (l', r))
    (hmap : mapMembers decode l' = mapMembers decode l) : ∀ m ∈ l, Survives m := by
  induction hall generalizing n l' r with
  | nil => exact absurd rfl hne
  | @cons m a l args ha hall ih =>
    obtain ⟨hd, h0⟩ := hl m (by simp)
    obtain ⟨n, rfl⟩ : ∃ k, n = k + 1 := ⟨n - 1, by omega⟩
    obtain ⟨ks, v⟩ := m
    have hkeyd : decode (a.key.map escapedElem) = a.key := decode_escaped _
    cases hall with
    | nil =>
      have hj : joined [a] = memberText a := rfl
      have hlen : (addedValue a).length ≤ n := by
        simp only [hj, memberText, List.length_append, List.length_cons] at hn
        omega
      rw [hj, readMembers_member] at hread
      cases hv : readValue n (skipWs (addedValue a ++ [125])) with
      | none => simp [hv] at hread
      | some p =>
        obtain ⟨w, r1⟩ := p
        have hfirst : w.map decode = v.map decode ∧ a.key = decode ks := by
          simp only [hv, Option.bind_some, memberEnd] at hread
          split at hread
          · obtain ⟨rfl, -⟩ := Prod.mk.inj (Option.some.inj hread)
            simp only [mapMembers, List.cons.injEq, Prod.mk.injEq, hkeyd] at hmap
            exact ⟨hmap.1.2, hmap.1.1⟩
          · obtain ⟨q, -, hq⟩ := Option.map_eq_some_iff.mp hread
            obtain ⟨rfl, -⟩ := Prod.mk.inj hq
            simp only [mapMembers, List.cons.injEq, Prod.mk.injEq, hkeyd] at hmap
            exact ⟨hmap.1.2, hmap.1.1⟩
          · simp at hread
        have hm := survives_of_value ha ⟨hd, h0⟩ (.inl rfl) hlen hv hfirst.1 hfirst.2
        simpa using hm.1
    | @cons m2 b l args hb hall =>
      have hlen : (addedValue a).length ≤ n ∧ (joined (b :: args)).length + 1 ≤ n := by
        simp only [joined_cons, memberText, List.length_append, List.length_cons] at hn
        omega
      have htail : Closes (44 :: 32 :: (joined (b :: args) ++ [125])) := by
        obtain ⟨u, hu⟩ := joined_head b args
        exact .inr ⟨u ++ [125], by rw [hu]; rfl⟩
      rw [joined_cons, List.append_assoc, readMembers_member] at hread
      simp only [List.cons_append] at hread
      cases hv : readValue n (skipWs (addedValue a ++ 44 :: 32 :: (joined (b :: args) ++ [125])))
        with
      | none => simp [hv] at hread
      | some p =>
        obtain ⟨w, r1⟩ := p
        simp only [hv, Option.bind_some, memberEnd] at hread
        split at hread
        · obtain ⟨rfl, -⟩ := Prod.mk.inj (Option.some.inj hread)
          simp [mapMembers] at hmap
        · next r' hr' =>
          obtain ⟨⟨l2, r2⟩, hrest, hq⟩ := Option.map_eq_some_iff.mp hread
          obtain ⟨rfl, -⟩ := Prod.mk.inj hq
          obtain ⟨m2k, m2v⟩ := m2
          simp only [mapMembers, List.cons.injEq, Prod.mk.injEq, hkeyd] at hmap
          obtain ⟨hm, rfl⟩ := survives_of_value ha ⟨hd, h0⟩ htail hlen.1 hv hmap.1.2 hmap.1.1
          have hr'' : r' = 32 :: (joined (b :: args) ++ [125]) := (List.cons.inj hr').2.symm
          rw [hr'', readMembers_blank] at hrest
          have hall' := ih (by simp) (fun m hm => hl m (List.mem_cons_of_mem _ hm)) hlen.2 hrest
            (by simpa only [mapMembers] using hmap.2)
          exact List.forall_mem_cons.mpr ⟨hm, hall'⟩
        · simp at hread

end Reading

end Ds4.Dsml
