import Ds4.Json.Reader

/-! The reader accepts exactly the texts of the grammar, with the value they denote. -/
namespace Ds4.Json

theorem readScalar_sound {s r : Bytes} {v : Syn} (h : readScalar s = some (v, r)) :
    ∃ t, s = t ++ r ∧ ValueText t v := by
  unfold readScalar at h
  split_ifs at h with h1 h2 h3
  · obtain ⟨u, rfl⟩ := h1
    obtain ⟨rfl, rfl⟩ := Prod.mk.inj (Option.some.inj h)
    exact ⟨lit "null", rfl, .null⟩
  · obtain ⟨u, rfl⟩ := h2
    obtain ⟨rfl, rfl⟩ := Prod.mk.inj (Option.some.inj h)
    exact ⟨lit "true", rfl, .true⟩
  · obtain ⟨u, rfl⟩ := h3
    obtain ⟨rfl, rfl⟩ := Prod.mk.inj (Option.some.inj h)
    exact ⟨lit "false", rfl, .false⟩
  · obtain ⟨p, hp, hq⟩ := Option.map_eq_some_iff.mp h
    obtain ⟨rfl, rfl⟩ := Prod.mk.inj hq
    obtain ⟨hs, hn⟩ := readNumber_sound (n := p.1) (r := p.2) hp
    exact ⟨p.1, hs, .num hn⟩

private theorem read_sound (n : ℕ) :
    (∀ s v r, readValue n s = some (v, r) → ∃ t, s = t ++ r ∧ ValueText t v) ∧
    (∀ s vs r, readItems n s = some (vs, r) → ∃ t, s = t ++ 93 :: r ∧ ItemsText t vs) ∧
    (∀ s l r, readMembers n s = some (l, r) → ∃ t, s = t ++ 125 :: r ∧ MembersText t l) := by
  induction n with
  | zero => simp [readValue, readItems, readMembers]
  | succ n ih =>
    obtain ⟨ihv, ihi, ihm⟩ := ih
    refine ⟨fun s v r h => ?_, fun s vs r h => ?_, fun s l r h => ?_⟩
    · rw [readValue.eq_def] at h
      dsimp only at h
      split at h
      · next t =>
        obtain ⟨p, hp, hq⟩ := Option.map_eq_some_iff.mp h
        obtain ⟨rfl, rfl⟩ := Prod.mk.inj hq
        obtain ⟨u, rfl, hu⟩ := readBody_sound hp
        exact ⟨34 :: (u ++ [34]), by simp, .str (.mk hu)⟩
      · next t =>
        obtain ⟨w, hw, ht⟩ := skipWs_split t
        split at h
        · next r' hr =>
          obtain ⟨rfl, rfl⟩ := Prod.mk.inj (Option.some.inj h)
          exact ⟨91 :: (w ++ [93]), by rw [ht, hr]; simp, .arrNil hw⟩
        · obtain ⟨p, hp, hq⟩ := Option.map_eq_some_iff.mp h
          obtain ⟨rfl, rfl⟩ := Prod.mk.inj hq
          obtain ⟨u, rfl, hu⟩ := ihi _ p.1 p.2 hp
          exact ⟨91 :: (u ++ [93]), by simp, .arr hu⟩
      · next t =>
        obtain ⟨w, hw, ht⟩ := skipWs_split t
        split at h
        · next r' hr =>
          obtain ⟨rfl, rfl⟩ := Prod.mk.inj (Option.some.inj h)
          exact ⟨123 :: (w ++ [125]), by rw [ht, hr]; simp, .objNil hw⟩
        · obtain ⟨p, hp, hq⟩ := Option.map_eq_some_iff.mp h
          obtain ⟨rfl, rfl⟩ := Prod.mk.inj hq
          obtain ⟨u, rfl, hu⟩ := ihm _ p.1 p.2 hp
          exact ⟨123 :: (u ++ [125]), by simp, .obj hu⟩
      · exact readScalar_sound h
    · rw [readItems.eq_def] at h
      dsimp only at h
      obtain ⟨a, ha, hs⟩ := skipWs_split s
      cases hv : readValue n (skipWs s) with
      | none => simp [hv] at h
      | some p =>
        obtain ⟨v, r1⟩ := p
        obtain ⟨t, ht, hvt⟩ := ihv _ _ _ hv
        obtain ⟨b, hb, hr1⟩ := skipWs_split r1
        simp only [hv] at h
        split at h
        · next r' hr =>
          obtain ⟨rfl, rfl⟩ := Prod.mk.inj (Option.some.inj h)
          exact ⟨a ++ (t ++ b), by rw [hs, ht, hr1, hr]; simp, .one ha hvt hb⟩
        · next r' hr =>
          obtain ⟨p, hp, hq⟩ := Option.map_eq_some_iff.mp h
          obtain ⟨rfl, rfl⟩ := Prod.mk.inj hq
          obtain ⟨u, rfl, hu⟩ := ihi _ p.1 p.2 hp
          exact ⟨a ++ (t ++ (b ++ 44 :: u)), by rw [hs, ht, hr1, hr]; simp,
            .cons ha hvt hb hu⟩
        · simp at h
    · rw [readMembers.eq_def] at h
      dsimp only at h
      obtain ⟨a, ha, hs⟩ := skipWs_split s
      cases hk : readString (skipWs s) with
      | none => simp [hk] at h
      | some p =>
        obtain ⟨es, r1⟩ := p
        obtain ⟨k, hk1, hkt⟩ := readString_sound hk
        obtain ⟨b, hb, hr1⟩ := skipWs_split r1
        simp only [hk] at h
        split at h
        · next r2 hr2 =>
          obtain ⟨c, hc, hr2s⟩ := skipWs_split r2
          cases hv : readValue n (skipWs r2) with
          | none => simp [hv] at h
          | some p =>
            obtain ⟨v, r3⟩ := p
            obtain ⟨t, ht, hvt⟩ := ihv _ _ _ hv
            obtain ⟨d, hd, hr3⟩ := skipWs_split r3
            simp only [hv] at h
            split at h
            · next r4 hr4 =>
              obtain ⟨rfl, rfl⟩ := Prod.mk.inj (Option.some.inj h)
              exact ⟨a ++ (k ++ (b ++ 58 :: (c ++ (t ++ d)))),
                by rw [hs, hk1, hr1, hr2, hr2s, ht, hr3, hr4]; simp, .one ha hkt hb hc hvt hd⟩
            · next r4 hr4 =>
              obtain ⟨p, hp, hq⟩ := Option.map_eq_some_iff.mp h
              obtain ⟨rfl, rfl⟩ := Prod.mk.inj hq
              obtain ⟨u, rfl, hu⟩ := ihm _ p.1 p.2 hp
              exact ⟨a ++ (k ++ (b ++ 58 :: (c ++ (t ++ (d ++ 44 :: u))))),
                by rw [hs, hk1, hr1, hr2, hr2s, ht, hr3, hr4]; simp,
                .cons ha hkt hb hc hvt hd hu⟩
            · simp at h
        · simp at h

theorem readValue_sound {n : ℕ} {s r : Bytes} {v : Syn} (h : readValue n s = some (v, r)) :
    ∃ t, s = t ++ r ∧ ValueText t v := (read_sound n).1 s v r h

/-- How a number text begins. -/
theorem numberText_head {n : Bytes} (h : NumberText n) :
    ∃ c t, n = c :: t ∧ (c = 45 ∨ isDigit c = true) := by
  obtain ⟨hsg, hint, hfr, hex⟩ := h
  rcases hsg with rfl | rfl
  · rcases hint with rfl | ⟨⟨hne, hd⟩, -⟩
    · exact ⟨48, _, rfl, .inr (by decide)⟩
    · next int _ _ =>
      cases int with
      | nil => exact absurd rfl hne
      | cons c t => exact ⟨c, _, rfl, .inr (hd c (by simp))⟩
  · exact ⟨45, _, rfl, .inl rfl⟩

private theorem digit_head : ∀ c : UInt8, isDigit c = true →
    isWs c = false ∧ isSpace c = false ∧ c ≠ 93 ∧ c ≠ 125 ∧ c ≠ 44 := by
  decide +kernel

/-- The first character of a value is none of the separators. -/
theorem valueText_head {t : Bytes} {v : Syn} (h : ValueText t v) :
    ∃ c u, t = c :: u ∧ isWs c = false ∧ isSpace c = false ∧ c ≠ 93 ∧ c ≠ 125 ∧ c ≠ 44 := by
  cases h with
  | null => exact ⟨110, _, rfl, by decide⟩
  | true => exact ⟨116, _, rfl, by decide⟩
  | false => exact ⟨102, _, rfl, by decide⟩
  | num hn =>
    obtain ⟨c, u, rfl, hc⟩ := numberText_head hn
    refine ⟨c, u, rfl, ?_⟩
    rcases hc with rfl | hc
    · decide
    · exact digit_head c hc
  | str hs => exact hs.casesOn fun _ => ⟨34, _, rfl, by decide⟩
  | arrNil | arr => exact ⟨91, _, rfl, by decide⟩
  | objNil | obj => exact ⟨123, _, rfl, by decide⟩

theorem skipWs_value {a t r : Bytes} {v : Syn} (ha : Ws a) (h : ValueText t v) :
    skipWs (a ++ (t ++ r)) = t ++ r := by
  obtain ⟨c, u, rfl, hc, -⟩ := valueText_head h
  rw [skipWs_append ha, List.cons_append, skipWs_cons hc]

theorem skipWs_string {a t r : Bytes} {es : List StrElem} (ha : Ws a) (h : StringText t es) :
    skipWs (a ++ (t ++ r)) = t ++ r := by
  obtain ⟨_⟩ := h
  rw [skipWs_append ha, List.cons_append, skipWs_cons (by decide)]

theorem skipWs_mark {a r : Bytes} {c : UInt8} (ha : Ws a) (hc : isWs c = false) :
    skipWs (a ++ c :: r) = c :: r := by
  rw [skipWs_append ha, skipWs_cons hc]

/-- Where the items of an array begin there is no closing bracket. -/
theorem itemsText_head {t r : Bytes} {vs : List Syn} (h : ItemsText t vs) :
    ∃ c u, skipWs (t ++ r) = c :: u ∧ c ≠ 93 := by
  cases h with
  | one ha hv _ | cons ha hv _ _ =>
    obtain ⟨c, u, hu, -, -, hc, -⟩ := valueText_head hv
    simp only [List.append_assoc]
    rw [skipWs_value ha hv, hu]
    exact ⟨c, _, rfl, hc⟩

theorem membersText_head {t r : Bytes} {l : List (List StrElem × Syn)} (h : MembersText t l) :
    ∃ c u, skipWs (t ++ r) = c :: u ∧ c ≠ 125 := by
  cases h with
  | one ha hk _ _ _ _ | cons ha hk _ _ _ _ _ =>
    simp only [List.append_assoc]
    rw [skipWs_string ha hk]
    obtain ⟨_⟩ := hk
    exact ⟨34, _, rfl, by decide⟩

theorem readScalar_number {n r : Bytes} (h : NumberText n) (hr : NumEnd r) :
    readScalar (n ++ r) = some (.num n, r) := by
  obtain ⟨c, t, hn, hc⟩ := numberText_head h
  have hne : ∀ d u, (d = 110 ∨ d = 116 ∨ d = 102) → ¬ (d :: u : Bytes) <+: n ++ r := by
    rintro d u hd hp
    rw [hn, List.cons_append] at hp
    obtain ⟨rfl, -⟩ := List.cons_prefix_cons.mp hp
    rcases hd with rfl | rfl | rfl <;> rcases hc with hc | hc <;> exact absurd hc (by decide)
  have hnull : ¬ lit "null" <+: n ++ r := hne 110 _ (.inl rfl)
  have htrue : ¬ lit "true" <+: n ++ r := hne 116 _ (.inr (.inl rfl))
  have hfalse : ¬ lit "false" <+: n ++ r := hne 102 _ (.inr (.inr rfl))
  simp only [readScalar, hnull, htrue, hfalse, ↓reduceIte, readNumber_complete h hr,
    Option.map_some]

private theorem readValue_number {m : ℕ} {n r : Bytes} (h : NumberText n) (hr : NumEnd r) :
    readValue (m + 1) (n ++ r) = some (.num n, r) := by
  rw [← readScalar_number h hr, readValue.eq_def]
  dsimp only
  obtain ⟨c, t, rfl, hc⟩ := numberText_head h
  split
  · next heq =>
    obtain ⟨rfl, -⟩ := List.cons.inj heq
    rcases hc with hc | hc <;> exact absurd hc (by decide)
  · next heq =>
    obtain ⟨rfl, -⟩ := List.cons.inj heq
    rcases hc with hc | hc <;> exact absurd hc (by decide)
  · next heq =>
    obtain ⟨rfl, -⟩ := List.cons.inj heq
    rcases hc with hc | hc <;> exact absurd hc (by decide)
  · rfl

private theorem read_complete (n : ℕ) :
    (∀ t v r, ValueText t v → NumEnd r → t.length ≤ n → readValue n (t ++ r) = some (v, r)) ∧
    (∀ t vs r, ItemsText t vs → t.length + 1 ≤ n →
      readItems n (t ++ 93 :: r) = some (vs, r)) ∧
    (∀ t l r, MembersText t l → t.length + 1 ≤ n →
      readMembers n (t ++ 125 :: r) = some (l, r)) := by
  induction n with
  | zero =>
    refine ⟨fun t v r h _ hn => ?_, fun _ _ _ _ hn => ?_, fun _ _ _ _ hn => ?_⟩
    · obtain ⟨c, u, rfl, -⟩ := valueText_head h
      simp at hn
    all_goals omega
  | succ n ih =>
    obtain ⟨ihv, ihi, ihm⟩ := ih
    refine ⟨fun t v r h hr hn => ?_, fun t vs r h hn => ?_, fun t l r h hn => ?_⟩
    · cases h with
      | null | true | false => rfl
      | num hnum => exact readValue_number hnum hr
      | str hs =>
        obtain ⟨hb⟩ := hs
        rw [List.cons_append, readValue.eq_def]
        simp [readBody_complete hb]
      | arrNil hw =>
        rw [List.cons_append, readValue.eq_def]
        simp [skipWs_mark hw (by decide : isWs 93 = false)]
      | objNil hw =>
        rw [List.cons_append, readValue.eq_def]
        simp [skipWs_mark hw (by decide : isWs 125 = false)]
      | @arr t vs hi =>
        have hread := ihi t vs r hi (by simp at hn; omega)
        obtain ⟨c, u, hc, h93⟩ := itemsText_head (r := 93 :: r) hi
        rw [List.cons_append, readValue.eq_def]
        simp only [List.append_assoc, List.singleton_append, hc, hread]
        split
        · next heq => exact absurd (List.cons.inj heq).1 h93
        · rfl
      | @obj t l hm =>
        have hread := ihm t l r hm (by simp at hn; omega)
        obtain ⟨c, u, hc, h125⟩ := membersText_head (r := 125 :: r) hm
        rw [List.cons_append, readValue.eq_def]
        simp only [List.append_assoc, List.singleton_append, hc, hread]
        split
        · next heq => exact absurd (List.cons.inj heq).1 h125
        · rfl
    · cases h with
      | @one a t b v ha hv hb =>
        have hread := ihv t v (b ++ 93 :: r) hv (numEnd_ws hb (numEnd_cons (by decide)))
          (by simp at hn; omega)
        rw [readItems.eq_def]
        simp only [List.append_assoc, skipWs_value ha hv, hread,
          skipWs_mark hb (by decide : isWs 93 = false)]
      | @cons a t b s v vs ha hv hb hs =>
        have hread := ihv t v (b ++ 44 :: (s ++ 93 :: r)) hv
          (numEnd_ws hb (numEnd_cons (by decide))) (by simp at hn; omega)
        have hrest := ihi s vs r hs (by simp at hn; omega)
        rw [readItems.eq_def]
        simp only [List.append_assoc, List.cons_append, skipWs_value ha hv, hread,
          skipWs_mark hb (by decide : isWs 44 = false), hrest, Option.map_some]
    · cases h with
      | @one a k b c t d es v ha hk hb hc hv hd =>
        have hread := ihv t v (d ++ 125 :: r) hv (numEnd_ws hd (numEnd_cons (by decide)))
          (by simp at hn; omega)
        rw [readMembers.eq_def]
        simp only [List.append_assoc, List.cons_append, skipWs_string ha hk,
          readString_complete hk, skipWs_mark hb (by decide : isWs 58 = false),
          skipWs_value hc hv, hread, skipWs_mark hd (by decide : isWs 125 = false)]
      | @cons a k b c t d s es v l ha hk hb hc hv hd hs =>
        have hread := ihv t v (d ++ 44 :: (s ++ 125 :: r)) hv
          (numEnd_ws hd (numEnd_cons (by decide))) (by simp at hn; omega)
        have hrest := ihm s l r hs (by simp at hn; omega)
        rw [readMembers.eq_def]
        simp only [List.append_assoc, List.cons_append, skipWs_string ha hk,
          readString_complete hk, skipWs_mark hb (by decide : isWs 58 = false),
          skipWs_value hc hv, hread, skipWs_mark hd (by decide : isWs 44 = false), hrest,
          Option.map_some]

theorem readValue_complete {t r : Bytes} {v : Syn} {n : ℕ} (h : ValueText t v) (hr : NumEnd r)
    (hn : t.length ≤ n) : readValue n (t ++ r) = some (v, r) := (read_complete n).1 t v r h hr hn

/-- Texts that are one object, with blanks around it. -/
inductive ObjectText : Bytes → List (List StrElem × Syn) → Prop
  | mk {a t b l} : Ws a → ValueText t (.obj l) → Ws b → ObjectText (a ++ (t ++ b)) l

theorem readObject_iff {s : Bytes} {l : List (List StrElem × Syn)} :
    readObject s = some l ↔ ObjectText s l := by
  constructor
  · intro h
    unfold readObject at h
    split at h
    · next l' r hv =>
      split_ifs at h with hr
      obtain rfl := Option.some.inj h
      obtain ⟨a, ha, hs⟩ := skipWs_split s
      obtain ⟨b, hb, hrb⟩ := skipWs_split r
      obtain ⟨t, ht, hvt⟩ := readValue_sound hv
      rw [hs, ht, hrb, hr, List.append_nil]
      exact .mk ha hvt hb
    · simp at h
  · rintro ⟨ha, ht, hb⟩
    next a t b =>
    have hb' : skipWs b = [] := by simpa [skipWs] using skipWs_append (s := []) hb
    have hread := readValue_complete (n := (a ++ (t ++ b)).length + 1) ht
      (by simpa using numEnd_ws hb numEnd_nil) (by simp; omega)
    simp only [readObject, skipWs_value ha ht, hread, hb', ↓reduceIte]

end Ds4.Json
