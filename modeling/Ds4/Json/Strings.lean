import Ds4.Json.Rewrite

/-! What `json_string` returns for a literal, and for a byte string that was written as a literal
in one piece or in several. -/
namespace Ds4.Json

section Literals
variable {a t r : Bytes} {es : List StrElem}

/-- The UTF-8 of the replacement character. -/
def replacement : Bytes := [0xef, 0xbf, 0xbd]

/-- One code point of a literal, with the replacement character for a surrogate. -/
def replaced (u : ℕ) : Bytes := if isHigh u || isLow u then replacement else utf8Put u

/-- The bytes of a literal with one replacement character for every unpaired surrogate. -/
def decodeReplaced : List StrElem → Bytes
  | [] => []
  | .byte b :: es => b :: decodeReplaced es
  | .unit u :: es =>
      match es with
      | .unit v :: es' =>
          if isHigh u && isLow v then utf8Put (combine u v) ++ decodeReplaced es'
          else replaced u ++ decodeReplaced (.unit v :: es')
      | es => replaced u ++ decodeReplaced es

private theorem utf8Put_no_zero {u : ℕ} (hu : u ≠ 0) : 0 ∉ utf8Put u := by
  intro hmem
  by_cases hascii : u ≤ 0x7f
  · have hput : utf8Put u = [u.toUInt8] := if_pos hascii
    have hzero := congrArg UInt8.toNat (List.mem_singleton.1 (hput ▸ hmem))
    rw [show u.toUInt8.toNat = u % 256 from UInt8.toNat_ofNat', UInt8.toNat_zero] at hzero
    omega
  · have hhigh := utf8Put_high (Nat.not_le.1 hascii) 0 hmem
    exact absurd hhigh (by decide)

/-- A literal without an encoded zero byte is written without one. -/
theorem zero_not_mem_written (hraw : ∀ b, .byte b ∈ es → b ≠ 0) (hunit : .unit 0 ∉ es) :
    0 ∉ written es := by
  have hne : ∀ u, .unit u ∈ es → u ≠ 0 := by
    rintro u hu rfl
    exact hunit hu
  clear hunit
  fun_induction written es with
  | case1 => exact List.not_mem_nil
  | case2 b es ih =>
    have hrest := ih (fun b hb => hraw b (List.mem_cons_of_mem _ hb))
      (fun u hu => hne u (List.mem_cons_of_mem _ hu))
    intro hmem
    rcases List.mem_cons.1 hmem with h | h
    · exact hraw b List.mem_cons_self h.symm
    · exact hrest h
  | case3 u v es hu ih =>
    have hrest := ih (fun b hb => hraw b (by simp [hb])) (fun w hw => hne w (by simp [hw]))
    have hpos : (if isLow v then combine u v else u) ≠ 0 := by
      split_ifs
      · unfold combine
        omega
      · exact hne u List.mem_cons_self
    intro hmem
    exact (List.mem_append.1 hmem).elim (utf8Put_no_zero hpos) hrest
  | case4 u v es hu ih =>
    have hrest := ih (fun b hb => hraw b (List.mem_cons_of_mem _ hb))
      (fun w hw => hne w (List.mem_cons_of_mem _ hw))
    intro hmem
    exact (List.mem_append.1 hmem).elim (utf8Put_no_zero (hne u List.mem_cons_self)) hrest
  | case5 u es _ ih =>
    have hrest := ih (fun b hb => hraw b (List.mem_cons_of_mem _ hb))
      (fun w hw => hne w (List.mem_cons_of_mem _ hw))
    intro hmem
    exact (List.mem_append.1 hmem).elim (utf8Put_no_zero (hne u List.mem_cons_self)) hrest

private theorem simpleEscape_no_zero : ∀ e x : UInt8, simpleEscape e = some x → x ≠ 0 := by
  intro e x h
  unfold simpleEscape at h
  split_ifs at h with h0
  all_goals
    obtain rfl := Option.some.inj h
    try decide
  rcases h0 with rfl | rfl | rfl <;> decide

theorem bodyText_no_zero (h : BodyText t es) : ∀ b, .byte b ∈ es → b ≠ 0 := by
  induction h with
  | nil => simp
  | raw hlo _ _ _ ih =>
    intro b hb
    rcases List.mem_cons.1 hb with heq | hb
    · cases heq
      rintro rfl
      exact absurd hlo (by decide)
    · exact ih b hb
  | esc he _ ih =>
    intro b hb
    rcases List.mem_cons.1 hb with heq | hb
    · cases heq
      exact simpleEscape_no_zero _ _ he
    · exact ih b hb
  | unit _ _ ih =>
    intro b hb
    rcases List.mem_cons.1 hb with heq | hb
    · cases heq
    · exact ih b hb

/-- A literal without an encoded zero byte is accepted, the cursor stands behind it, and the users
of the string see all of it. Where no escape is lost the string is the decoded literal, an unpaired
surrogate with its own three bytes. -/
theorem jsonString_literal (ha : Ws a) (h : StringText t es) (hnul : .unit 0 ∉ es) :
    ∃ out, jsonString (a ++ (t ++ r)) = some (out, r) ∧ cstr out = out ∧
      (keepsUnits es = true → out = decode es) := by
  refine ⟨written es, jsonString_text ha h, ?_, written_of_keepsUnits⟩
  obtain ⟨hb⟩ := h
  exact cstr_eq_self (zero_not_mem_written (bodyText_no_zero hb) hnul)

theorem emoji_literal : ∃ out,
    jsonString ([32] ++ (34 :: (lit "\\u0041\\ud83d\\ude00" ++ [34]) ++ lit ", 1")) =
        some (out, lit ", 1") ∧ cstr out = out ∧
      (keepsUnits [.unit 0x41, .unit 0xd83d, .unit 0xde00] = true →
        out = decode [.unit 0x41, .unit 0xd83d, .unit 0xde00]) := by
  have hbody : BodyText (lit "\\u0041\\ud83d\\ude00")
      [.unit 0x41, .unit 0xd83d, .unit 0xde00] :=
    .unit (by decide) (.unit (by decide) (.unit (by decide) .nil))
  exact jsonString_literal (by simp [Ws, isWs]) (.mk hbody) (by decide)

/-- A surrogate without its partner is not replaced. -/
theorem loneSurrogate_kept : ¬ ∀ (t r : Bytes) (es : List StrElem), StringText t es →
    .unit 0 ∉ es → ∃ out, jsonString (t ++ r) = some (out, r) ∧ cstr out = decodeReplaced es := by
  intro hall
  have hbody : BodyText (lit "\\ud800") [.unit 0xd800] := .unit (by decide) .nil
  obtain ⟨out, hread, hout⟩ := hall (34 :: (lit "\\ud800" ++ [34])) [] _ (.mk hbody) (by decide)
  have hkept : jsonString (34 :: (lit "\\ud800" ++ [34]) ++ []) =
      some ([0xed, 0xa0, 0x80], []) := by
    decide
  rw [hkept] at hread
  obtain ⟨rfl, -⟩ := Prod.mk.inj (Option.some.inj hread)
  revert hout
  decide

end Literals

section Fragments
variable {s r : Bytes} {pieces : List Bytes}

theorem keepsUnits_escaped (s : Bytes) : keepsUnits (s.map escapedElem) = true := by
  have hlow : ∀ c u, escapedElem c = .unit u → isHigh u = false := by
    intro c u h
    unfold escapedElem at h
    split_ifs at h with hc
    cases h
    have hlt : c.toNat < 32 := UInt8.lt_iff_toNat_lt.1 hc.1
    simp only [isHigh, Bool.and_eq_false_iff, decide_eq_false_iff_not]
    omega
  induction s with
  | nil => rfl
  | cons c s ih =>
    rw [List.map_cons, keepsUnits.eq_def]
    cases hc : escapedElem c with
    | byte b => exact ih
    | unit u =>
      cases hs : s.map escapedElem with
      | nil => rfl
      | cons e es =>
        rw [hs] at ih
        cases e with
        | byte b => exact ih
        | unit v => simpa [hlow c u hc] using ih

/-- What is written for a byte string is read as that string. -/
theorem jsonString_escaped (s r : Bytes) : jsonString (jsonEscape s ++ r) = some (s, r) := by
  have hread := jsonString_text (a := []) (r := r) (by unfold Ws; simp) (jsonEscape_text s)
  rwa [List.nil_append, written_of_keepsUnits (keepsUnits_escaped s), decode_escaped] at hread

theorem escape_flatten (pieces : List Bytes) :
    pieces.flatMap jsonEscapeFragmentN = jsonEscapeFragmentN pieces.flatten := by
  induction pieces with
  | nil => rfl
  | cons p pieces ih =>
    rw [List.flatMap_cons, ih, List.flatten_cons]
    unfold jsonEscapeFragmentN
    rw [List.flatMap_append]

/-- However a byte string without a zero byte is cut, its escaped pieces between quotes are the
literal of the whole, which is read as the string. -/
theorem escaped_fragments (h : 0 ∉ pieces.flatten) :
    ((jsonString (34 :: (pieces.flatMap jsonEscapeFragmentN ++ 34 :: r))).map
        fun p => (cstr p.1, p.2)) = some (pieces.flatten, r) ∧
      34 :: (pieces.flatMap jsonEscapeFragmentN ++ [34]) = jsonEscape (cstr pieces.flatten) := by
  have hwhole : 34 :: (pieces.flatMap jsonEscapeFragmentN ++ [34]) =
      jsonEscape pieces.flatten := by
    rw [escape_flatten]
    rfl
  have htext : 34 :: (pieces.flatMap jsonEscapeFragmentN ++ 34 :: r) =
      jsonEscape pieces.flatten ++ r := by
    rw [← hwhole, List.cons_append, List.append_assoc, List.singleton_append]
  rw [htext, jsonString_escaped, Option.map_some, cstr_eq_self h]
  exact ⟨rfl, hwhole⟩

theorem quoted_fragments : ((jsonString (34 :: ([lit "a\"", [10, 1], lit "b\\"].flatMap
        jsonEscapeFragmentN ++ 34 :: lit "\x7d"))).map fun p => (cstr p.1, p.2)) =
      some ([lit "a\"", [10, 1], lit "b\\"].flatten, lit "\x7d") ∧
    34 :: ([lit "a\"", [10, 1], lit "b\\"].flatMap jsonEscapeFragmentN ++ [34]) =
      jsonEscape (cstr [lit "a\"", [10, 1], lit "b\\"].flatten) :=
  escaped_fragments (by decide)

end Fragments

end Ds4.Json
