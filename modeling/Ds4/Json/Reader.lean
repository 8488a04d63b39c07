import Ds4.Json.Text

/-! An executable reader for the JSON grammar, sound and complete for it. -/
namespace Ds4.Json

def readBody : Bytes → Option (List StrElem × Bytes)
  | [] => none
  | c :: t =>
      if c = 34 then some ([], t)
      else if c = 92 then
        match t with
        | [] => none
        | e :: t1 =>
            if e = 117 then
              match t1 with
              | a :: b :: c :: d :: t2 =>
                  match hex4 a b c d with
                  | some u => (readBody t2).map fun p => (.unit u :: p.1, p.2)
                  | none => none
              | _ => none
            else
              match simpleEscape e with
              | some x => (readBody t1).map fun p => (.byte x :: p.1, p.2)
              | none => none
      else if c < 32 then none
      else (readBody t).map fun p => (.byte c :: p.1, p.2)

def skipWs (s : Bytes) : Bytes := s.dropWhile isWs

def splitMinus : Bytes → Bytes × Bytes
  | 45 :: s => ([45], s)
  | s => ([], s)

def splitSign : Bytes → Bytes × Bytes
  | 43 :: s => ([43], s)
  | 45 :: s => ([45], s)
  | s => ([], s)

def readInt : Bytes → Option (Bytes × Bytes)
  | 48 :: s => some ([48], s)
  | s => if s.takeWhile isDigit = [] then none else some (s.takeWhile isDigit, s.dropWhile isDigit)

def readFrac : Bytes → Bytes × Bytes
  | 46 :: s =>
      if s.takeWhile isDigit = [] then ([], 46 :: s)
      else (46 :: s.takeWhile isDigit, s.dropWhile isDigit)
  | s => ([], s)

def readExp : Bytes → Bytes × Bytes
  | [] => ([], [])
  | e :: s =>
      let d := (splitSign s).2.takeWhile isDigit
      if (e = 101 ∨ e = 69) ∧ d ≠ [] then
        (e :: ((splitSign s).1 ++ d), (splitSign s).2.dropWhile isDigit)
      else ([], e :: s)

def readNumber (s : Bytes) : Option (Bytes × Bytes) :=
  let m := splitMinus s
  match readInt m.2 with
  | none => none
  | some i =>
      let f := readFrac i.2
      let e := readExp f.2
      some (m.1 ++ (i.1 ++ (f.1 ++ e.1)), e.2)

def readScalar (s : Bytes) : Option (Syn × Bytes) :=
  if lit "null" <+: s then some (.null, s.drop 4)
  else if lit "true" <+: s then some (.bool true, s.drop 4)
  else if lit "false" <+: s then some (.bool false, s.drop 5)
  else (readNumber s).map fun p => (.num p.1, p.2)

def readString : Bytes → Option (List StrElem × Bytes)
  | 34 :: t => readBody t
  | _ => none

mutual
def readValue : ℕ → Bytes → Option (Syn × Bytes)
  | 0, _ => none
  | n + 1, s =>
      match s with
      | 34 :: t => (readBody t).map fun p => (.str p.1, p.2)
      | 91 :: t =>
          match skipWs t with
          | 93 :: r => some (.arr [], r)
          | _ => (readItems n t).map fun p => (.arr p.1, p.2)
      | 123 :: t =>
          match skipWs t with
          | 125 :: r => some (.obj [], r)
          | _ => (readMembers n t).map fun p => (.obj p.1, p.2)
      | s => readScalar s

def readItems : ℕ → Bytes → Option (List Syn × Bytes)
  | 0, _ => none
  | n + 1, s =>
      match readValue n (skipWs s) with
      | none => none
      | some (v, r) =>
          match skipWs r with
          | 93 :: r' => some ([v], r')
          | 44 :: r' => (readItems n r').map fun p => (v :: p.1, p.2)
          | _ => none

def readMembers : ℕ → Bytes → Option (List (List StrElem × Syn) × Bytes)
  | 0, _ => none
  | n + 1, s =>
      match readString (skipWs s) with
      | none => none
      | some (k, r) =>
          match skipWs r with
          | 58 :: r1 =>
              match readValue n (skipWs r1) with
              | none => none
              | some (v, r2) =>
                  match skipWs r2 with
                  | 125 :: r3 => some ([(k, v)], r3)
                  | 44 :: r3 => (readMembers n r3).map fun p => ((k, v) :: p.1, p.2)
                  | _ => none
          | _ => none
end

/-- The members of a text that is one JSON object, in order. -/
def readObject (s : Bytes) : Option (List (List StrElem × Syn)) :=
  match readValue (s.length + 1) (skipWs s) with
  | some (.obj l, r) => if skipWs r = [] then some l else none
  | _ => none

example : (readObject (lit "\x7b\"a\": [1, \"x\"], \"b\":null\x7d")).map (mapMembers decode) =
    some [(lit "a", .arr [.num (lit "1"), .str (lit "x")]), (lit "b", .null)] := by
  decide +kernel

section Lexing

theorem skipWs_append {a s : Bytes} (h : Ws a) : skipWs (a ++ s) = skipWs s :=
  List.dropWhile_append_of_pos h

theorem skipWs_cons {c : UInt8} {s : Bytes} (h : isWs c = false) : skipWs (c :: s) = c :: s := by
  simp [skipWs, h]

theorem skipWs_split (s : Bytes) : ∃ w, Ws w ∧ s = w ++ skipWs s :=
  ⟨s.takeWhile isWs, fun _ h => List.mem_takeWhile_imp h,
    (List.takeWhile_append_dropWhile).symm⟩

theorem readBody_sound {s r : Bytes} {es : List StrElem} (h : readBody s = some (es, r)) :
    ∃ t, s = t ++ 34 :: r ∧ BodyText t es := by
  fun_induction readBody s generalizing es with
  | case1 => simp at h
  | case2 t =>
    obtain ⟨rfl, rfl⟩ := Prod.mk.inj (Option.some.inj h)
    exact ⟨[], rfl, .nil⟩
  | case3 => simp at h
  | case4 a b c d t u hu _ ih =>
    obtain ⟨p, hp, hq⟩ := Option.map_eq_some_iff.mp h
    obtain ⟨rfl, rfl⟩ := Prod.mk.inj hq
    obtain ⟨t', rfl, ht⟩ := ih hp
    exact ⟨92 :: 117 :: a :: b :: c :: d :: t', rfl, .unit hu ht⟩
  | case5 => simp at h
  | case6 => simp at h
  | case7 e t _ x hx _ ih =>
    obtain ⟨p, hp, hq⟩ := Option.map_eq_some_iff.mp h
    obtain ⟨rfl, rfl⟩ := Prod.mk.inj hq
    obtain ⟨t', rfl, ht⟩ := ih hp
    exact ⟨92 :: e :: t', rfl, .esc hx ht⟩
  | case8 => simp at h
  | case9 => simp at h
  | case10 c t hq hb hc ih =>
    obtain ⟨p, hp, hr⟩ := Option.map_eq_some_iff.mp h
    obtain ⟨rfl, rfl⟩ := Prod.mk.inj hr
    obtain ⟨t', rfl, ht⟩ := ih hp
    exact ⟨c :: t', rfl, .raw (UInt8.not_lt.mp hc) hq hb ht⟩

theorem simpleEscape_ne {e x : UInt8} (h : simpleEscape e = some x) : e ≠ 117 := by
  rintro rfl
  have : simpleEscape 117 = none := by decide
  simp [this] at h

theorem readBody_complete {t r : Bytes} {es : List StrElem} (h : BodyText t es) :
    readBody (t ++ 34 :: r) = some (es, r) := by
  induction h with
  | nil => rw [List.nil_append, readBody.eq_def]; simp
  | raw hlo hq hb _ ih =>
    rw [List.cons_append, readBody.eq_def]
    simp [hq, hb, UInt8.not_lt.mpr hlo, ih]
  | esc he _ ih =>
    rw [List.cons_append, readBody.eq_def]
    simp [simpleEscape_ne he, he, ih]
  | unit hu _ ih =>
    rw [List.cons_append, readBody.eq_def]
    simp [hu, ih]

theorem readString_sound {s r : Bytes} {es : List StrElem} (h : readString s = some (es, r)) :
    ∃ t, s = t ++ r ∧ StringText t es := by
  unfold readString at h
  split at h
  · obtain ⟨t, rfl, ht⟩ := readBody_sound h
    exact ⟨34 :: (t ++ [34]), by simp, .mk ht⟩
  · simp at h

theorem readString_complete {t r : Bytes} {es : List StrElem} (h : StringText t es) :
    readString (t ++ r) = some (es, r) := by
  obtain ⟨h⟩ := h
  simpa [readString] using readBody_complete h

/-- What may follow a number without becoming part of it, in JSON or for `strtod`. -/
def NumEnd (r : Bytes) : Prop :=
  ∀ c ∈ r.head?, isDigit c = false ∧ c ≠ 46 ∧ c ≠ 101 ∧ c ≠ 69 ∧ c ≠ 120 ∧ c ≠ 88

theorem numEnd_nil : NumEnd [] := by simp [NumEnd]

theorem numEnd_cons {c : UInt8} {r : Bytes}
    (h : isWs c = true ∨ c = 44 ∨ c = 93 ∨ c = 125 ∨ c = 58) : NumEnd (c :: r) := by
  intro d hd
  obtain rfl : c = d := by simpa using hd
  rcases h with h | rfl | rfl | rfl | rfl
  · simp only [isWs, Bool.or_eq_true, beq_iff_eq] at h
    rcases h with ((rfl | rfl) | rfl) | rfl <;> decide
  all_goals decide

theorem numEnd_ws {w r : Bytes} (hw : Ws w) (hr : NumEnd r) : NumEnd (w ++ r) := by
  cases w with
  | nil => exact hr
  | cons c w => exact numEnd_cons (.inl (hw c (by simp)))

theorem takeWhile_digits {digit : UInt8 → Bool} {d r : Bytes} (hd : ∀ c ∈ d, digit c = true)
    (hr : ∀ c ∈ r.head?, digit c = false) :
    (d ++ r).takeWhile digit = d ∧ (d ++ r).dropWhile digit = r := by
  rw [List.takeWhile_append_of_pos hd, List.dropWhile_append_of_pos hd]
  cases r with
  | nil => simp
  | cons c r => simp [hr c (by simp)]

theorem splitMinus_sound (s : Bytes) :
    ((splitMinus s).1 = [] ∨ (splitMinus s).1 = [45]) ∧
      s = (splitMinus s).1 ++ (splitMinus s).2 := by
  unfold splitMinus
  split <;> simp

theorem splitSign_sound (s : Bytes) :
    ((splitSign s).1 = [] ∨ (splitSign s).1 = [43] ∨ (splitSign s).1 = [45]) ∧
      s = (splitSign s).1 ++ (splitSign s).2 := by
  unfold splitSign
  split <;> simp

theorem digits_takeWhile {s : Bytes} (h : s.takeWhile isDigit ≠ []) :
    Digits (s.takeWhile isDigit) :=
  ⟨h, fun _ hc => List.mem_takeWhile_imp hc⟩

theorem readInt_sound {s : Bytes} {p : Bytes × Bytes} (h : readInt s = some p) :
    (p.1 = [48] ∨ (Digits p.1 ∧ p.1.head? ≠ some 48)) ∧ s = p.1 ++ p.2 := by
  unfold readInt at h
  split at h
  · obtain rfl := Option.some.inj h
    simp
  · next s' hs =>
    split_ifs at h with hd
    obtain rfl := Option.some.inj h
    refine ⟨.inr ⟨digits_takeWhile hd, fun hh => ?_⟩, List.takeWhile_append_dropWhile.symm⟩
    obtain ⟨u, hu⟩ : ∃ u, s.takeWhile isDigit = 48 :: u := by
      cases hw : s.takeWhile isDigit with
      | nil => exact absurd hw hd
      | cons c u => simp_all
    have hp := List.takeWhile_prefix (l := s) isDigit
    rw [hu] at hp
    obtain ⟨v, hv⟩ := hp
    exact hs (u ++ v) hv.symm

theorem readFrac_sound (s : Bytes) :
    ((readFrac s).1 = [] ∨ ∃ d, Digits d ∧ (readFrac s).1 = 46 :: d) ∧
      s = (readFrac s).1 ++ (readFrac s).2 := by
  unfold readFrac
  split
  · split_ifs with hd
    · simp
    · exact ⟨.inr ⟨_, digits_takeWhile hd, rfl⟩, by simp⟩
  · simp

theorem readExp_sound (s : Bytes) :
    ((readExp s).1 = [] ∨ ∃ e g d, (e = 101 ∨ e = 69) ∧ (g = [] ∨ g = [43] ∨ g = [45]) ∧
      Digits d ∧ (readExp s).1 = e :: (g ++ d)) ∧ s = (readExp s).1 ++ (readExp s).2 := by
  cases s with
  | nil => simp [readExp]
  | cons e s =>
    simp only [readExp]
    split_ifs with he
    · obtain ⟨hg, hs⟩ := splitSign_sound s
      refine ⟨.inr ⟨e, _, _, he.1, hg, digits_takeWhile he.2, rfl⟩, ?_⟩
      simp only [List.cons_append, List.append_assoc, List.takeWhile_append_dropWhile, ← hs]
    · simp

theorem readNumber_sound {s n r : Bytes} (h : readNumber s = some (n, r)) :
    s = n ++ r ∧ NumberText n := by
  unfold readNumber at h
  obtain ⟨hm, hs⟩ := splitMinus_sound s
  cases hi : readInt (splitMinus s).2 with
  | none => simp [hi] at h
  | some i =>
    simp only [hi, Option.some.injEq, Prod.mk.injEq] at h
    obtain ⟨rfl, rfl⟩ := h
    obtain ⟨hint, hi⟩ := readInt_sound hi
    obtain ⟨hf, hfs⟩ := readFrac_sound i.2
    obtain ⟨he, hes⟩ := readExp_sound (readFrac i.2).2
    refine ⟨?_, .mk hm hint hf he⟩
    simp only [List.append_assoc, ← hes, ← hfs, ← hi, ← hs]

theorem readExp_complete {ex r : Bytes} (hr : NumEnd r)
    (h : ex = [] ∨ ∃ e g d, (e = 101 ∨ e = 69) ∧ (g = [] ∨ g = [43] ∨ g = [45]) ∧
      Digits d ∧ ex = e :: (g ++ d)) : readExp (ex ++ r) = (ex, r) := by
  rcases h with rfl | ⟨e, g, d, he, hg, hd, rfl⟩
  · cases r with
    | nil => rfl
    | cons c r =>
      obtain ⟨-, -, h1, h2, -, -⟩ := hr c (by simp)
      simp [readExp, h1, h2]
  · have hsign : splitSign (g ++ (d ++ r)) = (g, d ++ r) := by
      rcases hg with rfl | rfl | rfl
      · obtain ⟨hd0, hd⟩ := hd
        cases d with
        | nil => exact absurd rfl hd0
        | cons c d =>
          have hc := hd c (by simp)
          unfold splitSign
          split
          · next heq => exact absurd ((List.cons.inj heq).1 ▸ hc) (by decide)
          · next heq => exact absurd ((List.cons.inj heq).1 ▸ hc) (by decide)
          · simp
      · rfl
      · rfl
    obtain ⟨ht, hdr⟩ := takeWhile_digits hd.2 fun c hc => (hr c hc).1
    simp only [readExp, List.cons_append, List.append_assoc, hsign, ht, hdr]
    rw [if_pos ⟨he, hd.1⟩]

/-- The tail of a number that starts with its exponent is not a digit and not a point. -/
theorem exp_head {ex r : Bytes} (hr : NumEnd r)
    (h : ex = [] ∨ ∃ e g d, (e = 101 ∨ e = 69) ∧ (g = [] ∨ g = [43] ∨ g = [45]) ∧
      Digits d ∧ ex = e :: (g ++ d)) :
    ∀ c ∈ (ex ++ r).head?, isDigit c = false ∧ c ≠ 46 ∧ c ≠ 120 ∧ c ≠ 88 := by
  rcases h with rfl | ⟨e, g, d, rfl | rfl, _, _, rfl⟩
  · exact fun c hc => ⟨(hr c hc).1, (hr c hc).2.1, (hr c hc).2.2.2.2.1, (hr c hc).2.2.2.2.2⟩
  all_goals
    intro c hc
    obtain rfl : _ = c := by simpa using hc
    decide

theorem readFrac_complete {fr s : Bytes} (hs : ∀ c ∈ s.head?, isDigit c = false ∧ c ≠ 46)
    (h : fr = [] ∨ ∃ d, Digits d ∧ fr = 46 :: d) : readFrac (fr ++ s) = (fr, s) := by
  rcases h with rfl | ⟨d, hd, rfl⟩
  · cases s with
    | nil => rfl
    | cons c s =>
      unfold readFrac
      split
      · next heq => simp at heq; exact absurd heq.1 (hs c (by simp)).2
      · simp
  · obtain ⟨ht, hdr⟩ := takeWhile_digits hd.2 fun c hc => (hs c hc).1
    simp only [readFrac, List.cons_append, ht, hdr, hd.1, ↓reduceIte]

theorem frac_head {fr s : Bytes}
    (hs : ∀ c ∈ s.head?, isDigit c = false ∧ c ≠ 46 ∧ c ≠ 120 ∧ c ≠ 88)
    (h : fr = [] ∨ ∃ d, Digits d ∧ fr = 46 :: d) :
    ∀ c ∈ (fr ++ s).head?, isDigit c = false ∧ c ≠ 120 ∧ c ≠ 88 := by
  rcases h with rfl | ⟨d, _, rfl⟩
  · exact fun c hc => ⟨(hs c hc).1, (hs c hc).2.2⟩
  · intro c hc
    obtain rfl : 46 = c := by simpa using hc
    decide

theorem readInt_complete {int s : Bytes} (hs : ∀ c ∈ s.head?, isDigit c = false)
    (h : int = [48] ∨ (Digits int ∧ int.head? ≠ some 48)) :
    readInt (int ++ s) = some (int, s) := by
  rcases h with rfl | ⟨hd, h0⟩
  · rfl
  · obtain ⟨ht, hdr⟩ := takeWhile_digits hd.2 hs
    unfold readInt
    split
    · next s' heq =>
      cases int with
      | nil => exact absurd rfl hd.1
      | cons c int => simp at heq; simp [heq.1] at h0
    · simp [ht, hdr, hd.1]

theorem readNumber_complete {n r : Bytes} (h : NumberText n) (hr : NumEnd r) :
    readNumber (n ++ r) = some (n, r) := by
  obtain ⟨hsg, hint, hfr, hex⟩ := h
  next sg int fr ex =>
  have hint' := readInt_complete (s := fr ++ (ex ++ r))
    (fun c hc => (frac_head (exp_head hr hex) hfr c hc).1) hint
  have hfr' := readFrac_complete (s := ex ++ r)
    (fun c hc => ⟨(exp_head hr hex c hc).1, (exp_head hr hex c hc).2.1⟩) hfr
  have hm : splitMinus (sg ++ (int ++ (fr ++ (ex ++ r)))) = (sg, int ++ (fr ++ (ex ++ r))) := by
    rcases hsg with rfl | rfl
    · unfold splitMinus
      split
      · next s heq =>
        rcases hint with rfl | ⟨hd, -⟩
        · simp at heq
        · cases int with
          | nil => exact absurd rfl hd.1
          | cons c int =>
            have hc := hd.2 c (by simp)
            exact absurd ((List.cons.inj heq).1 ▸ hc) (by decide)
      · simp
    · rfl
  simp only [readNumber, List.append_assoc, hm, hint', hfr', readExp_complete hr hex]

end Lexing

end Ds4.Json
