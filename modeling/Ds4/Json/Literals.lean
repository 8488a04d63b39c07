import Ds4.Json.Rewrite

/-! The string literals of a JSON text, in the order they are written. -/
namespace Ds4.Json

/-- The literals of a text, with the one that is open. -/
def literalsFrom : Option Bytes → Bytes → List Bytes
  | _, [] => []
  | none, c :: t => if c = 34 then literalsFrom (some []) t else literalsFrom none t
  | some b, 92 :: e :: t => literalsFrom (some (b ++ [92, e])) t
  | some b, c :: t => if c = 34 then b :: literalsFrom none t else literalsFrom (some (b ++ [c])) t

/-- What stands between the quotes of each string literal of a text. -/
def literals (t : Bytes) : List Bytes := literalsFrom none t

/-- The characters that a JSON text has outside its strings. -/
def outside : Bytes := lit " \t\n\x0d[]{}:,+-.0123456789Enulltruefalse"

def Quiet (g : Bytes) : Prop := ∀ c ∈ g, c ∈ outside

/-- A text, cut at its literals. -/
inductive Layout : Bytes → List Bytes → Prop
  | last {g} : Quiet g → Layout g []
  | lit {g b rest es ls} : Quiet g → BodyText b es → Layout rest ls →
      Layout (g ++ 34 :: (b ++ 34 :: rest)) (b :: ls)

section Quiet
variable {g h : Bytes}

theorem Quiet.append (hg : Quiet g) (hh : Quiet h) : Quiet (g ++ h) := fun c hc =>
  (List.mem_append.1 hc).elim (hg c) (hh c)

theorem Quiet.cons {c : UInt8} (hc : c ∈ outside) (hg : Quiet g) : Quiet (c :: g) := by
  intro d hd
  obtain rfl | hd := List.mem_cons.1 hd
  · exact hc
  · exact hg d hd

theorem Quiet.no_quote (hg : Quiet g) : 34 ∉ g := fun h => by
  have : (34 : UInt8) ∉ outside := by decide
  exact this (hg 34 h)

/-- The words, the blanks and the digits stand outside. -/
private theorem outside_holds :
    (∀ c ∈ lit "null" ++ (lit "true" ++ lit "false"), c ∈ outside) ∧
      ∀ c : UInt8, isWs c = true ∨ isDigit c = true → c ∈ outside := by
  decide +kernel

theorem quiet_word (h : g = lit "null" ∨ g = lit "true" ∨ g = lit "false") : Quiet g := by
  intro c hc
  apply outside_holds.1
  rw [List.mem_append, List.mem_append]
  obtain rfl | rfl | rfl := h
  · exact Or.inl hc
  · exact Or.inr (Or.inl hc)
  · exact Or.inr (Or.inr hc)

theorem quiet_ws (hg : Ws g) : Quiet g :=
  fun c hc => outside_holds.2 c (Or.inl (hg c hc))

theorem quiet_digits (hg : Digits g) : Quiet g :=
  fun c hc => outside_holds.2 c (Or.inr (hg.2 c hc))

theorem quiet_number (hg : NumberText g) : Quiet g := by
  have nil : Quiet [] := fun c hc => by cases hc
  obtain ⟨hsg, hint, hfr, hex⟩ := hg
  refine Quiet.append ?_ (Quiet.append ?_ (Quiet.append ?_ ?_))
  · obtain rfl | rfl := hsg
    · exact nil
    · exact Quiet.cons (by decide) nil
  · obtain rfl | ⟨hdigits, -⟩ := hint
    · exact Quiet.cons (by decide) nil
    · exact quiet_digits hdigits
  · obtain rfl | ⟨d, hd, rfl⟩ := hfr
    · exact nil
    · exact Quiet.cons (by decide) (quiet_digits hd)
  · obtain rfl | ⟨e, s, d, he, hs, hd, rfl⟩ := hex
    · exact nil
    · refine Quiet.cons ?_ (Quiet.append ?_ (quiet_digits hd))
      · obtain rfl | rfl := he
        · decide
        · decide
      · obtain rfl | rfl | rfl := hs
        · exact nil
        · exact Quiet.cons (by decide) nil
        · exact Quiet.cons (by decide) nil

end Quiet

section Layout
variable {g s t b : Bytes} {ls ms : List Bytes} {es : List StrElem}

theorem Layout.quiet_append (hg : Quiet g) (h : Layout t ls) : Layout (g ++ t) ls := by
  cases h with
  | last hg' => exact .last (hg.append hg')
  | lit hg' hb hrest =>
    rw [← List.append_assoc]
    exact .lit (hg.append hg') hb hrest

theorem Layout.cons {c : UInt8} (hc : c ∈ outside) (h : Layout t ls) : Layout (c :: t) ls :=
  h.quiet_append (g := [c]) (Quiet.cons hc fun d hd => by cases hd)

theorem Layout.append (hs : Layout s ls) (ht : Layout t ms) : Layout (s ++ t) (ls ++ ms) := by
  induction hs with
  | last hg => exact ht.quiet_append hg
  | lit hg hb hrest ih =>
    rw [List.append_assoc, List.cons_append, List.append_assoc, List.cons_append]
    exact .lit hg hb ih

theorem Layout.nil : Layout [] [] := .last fun c hc => by cases hc

theorem Layout.literal (hb : BodyText b es) : Layout (34 :: (b ++ [34])) [b] :=
  .lit (g := []) (fun c hc => by cases hc) hb .nil

theorem stringText_layout (h : StringText t es) : ∃ b, BodyText b es ∧ Layout t [b] := by
  obtain ⟨hb⟩ := h
  exact ⟨_, hb, .literal hb⟩

end Layout

mutual
/-- Every value has a layout. -/
theorem valueText_layout {t : Bytes} {v : Syn} : ValueText t v → ∃ ls, Layout t ls
  | .null => ⟨[], .last (quiet_word (Or.inl rfl))⟩
  | .true => ⟨[], .last (quiet_word (Or.inr (Or.inl rfl)))⟩
  | .false => ⟨[], .last (quiet_word (Or.inr (Or.inr rfl)))⟩
  | .num h => ⟨[], .last (quiet_number h)⟩
  | .str h =>
      let ⟨b, _, hb⟩ := stringText_layout h
      ⟨[b], hb⟩
  | .arrNil hw => ⟨[], .cons (by decide) (.quiet_append (quiet_ws hw) (.cons (by decide) .nil))⟩
  | .arr h =>
      let ⟨_, hls⟩ := itemsText_layout h
      ⟨_, .cons (by decide) (hls.append (.cons (by decide) .nil))⟩
  | .objNil hw => ⟨[], .cons (by decide) (.quiet_append (quiet_ws hw) (.cons (by decide) .nil))⟩
  | .obj h =>
      let ⟨_, hls⟩ := membersText_layout h
      ⟨_, .cons (by decide) (hls.append (.cons (by decide) .nil))⟩

theorem itemsText_layout {t : Bytes} {vs : List Syn} : ItemsText t vs → ∃ ls, Layout t ls
  | .one ha hv hb =>
      let ⟨_, hls⟩ := valueText_layout hv
      ⟨_, .quiet_append (quiet_ws ha) (hls.append (.last (quiet_ws hb)))⟩
  | .cons ha hv hb hvs =>
      let ⟨_, hls⟩ := valueText_layout hv
      let ⟨_, hms⟩ := itemsText_layout hvs
      ⟨_, .quiet_append (quiet_ws ha)
        (hls.append (.quiet_append (quiet_ws hb) (.cons (by decide) hms)))⟩

theorem membersText_layout {t : Bytes} {l : List (List StrElem × Syn)} :
    MembersText t l → ∃ ls, Layout t ls
  | .one ha hk hb hc hv hd =>
      let ⟨_, _, hkey⟩ := stringText_layout hk
      let ⟨_, hls⟩ := valueText_layout hv
      ⟨_, .quiet_append (quiet_ws ha) (hkey.append (.quiet_append (quiet_ws hb)
        (.cons (by decide) (.quiet_append (quiet_ws hc) (hls.append (.last (quiet_ws hd)))))))⟩
  | .cons ha hk hb hc hv hd hl =>
      let ⟨_, _, hkey⟩ := stringText_layout hk
      let ⟨_, hls⟩ := valueText_layout hv
      let ⟨_, hms⟩ := membersText_layout hl
      ⟨_, .quiet_append (quiet_ws ha) (hkey.append (.quiet_append (quiet_ws hb)
        (.cons (by decide) (.quiet_append (quiet_ws hc) (hls.append
          (.quiet_append (quiet_ws hd) (.cons (by decide) hms)))))))⟩
end

/-- A member's key and its string are neighbours. -/
theorem member_layout {t : Bytes} {l : List (List StrElem × Syn)} {k es : List StrElem} :
    MembersText t l → (k, Value.str es) ∈ l → ∃ pre key value post,
      Layout t (pre ++ key :: value :: post) ∧ BodyText key k ∧ BodyText value es
  | .one (v := v) ha hk hb hc hv hd, hmem => by
      obtain ⟨key, hkb, hkey⟩ := stringText_layout hk
      obtain ⟨rfl, rfl⟩ := Prod.mk.inj (List.mem_singleton.1 hmem)
      cases hv with
      | str hs =>
        obtain ⟨value, hvb, hvalue⟩ := stringText_layout hs
        exact ⟨[], key, value, [], .quiet_append (quiet_ws ha) (hkey.append
          (.quiet_append (quiet_ws hb) (.cons (by decide) (.quiet_append (quiet_ws hc)
            (hvalue.append (.last (quiet_ws hd))))))), hkb, hvb⟩
  | .cons (v := v) ha hk hb hc hv hd hl, hmem => by
      obtain ⟨key, hkb, hkey⟩ := stringText_layout hk
      obtain heq | hmem := List.mem_cons.1 hmem
      · obtain ⟨rfl, rfl⟩ := Prod.mk.inj heq
        obtain ⟨ms, hms⟩ := membersText_layout hl
        cases hv with
        | str hs =>
          obtain ⟨value, hvb, hvalue⟩ := stringText_layout hs
          exact ⟨[], key, value, ms, .quiet_append (quiet_ws ha) (hkey.append
            (.quiet_append (quiet_ws hb) (.cons (by decide) (.quiet_append (quiet_ws hc)
              (hvalue.append (.quiet_append (quiet_ws hd) (.cons (by decide) hms))))))), hkb, hvb⟩
      · obtain ⟨ls, hls⟩ := valueText_layout hv
        obtain ⟨pre, key', value, post, hms, hkb', hvb⟩ := member_layout hl hmem
        refine ⟨key :: (ls ++ pre), key', value, post, ?_, hkb', hvb⟩
        rw [List.cons_append, List.append_assoc]
        exact .quiet_append (quiet_ws ha) (hkey.append (.quiet_append (quiet_ws hb)
          (.cons (by decide) (.quiet_append (quiet_ws hc) (hls.append
            (.quiet_append (quiet_ws hd) (.cons (by decide) hms)))))))

/-! The literals that a scan gives are those of the layout. -/
section Scan
variable {g b t rest : Bytes} {es : List StrElem} {ls : List Bytes}

theorem literalsFrom_quiet (h : 34 ∉ g) :
    literalsFrom none (g ++ rest) = literalsFrom none rest := by
  induction g with
  | nil => rfl
  | cons c g ih =>
    obtain ⟨hc, hg⟩ := not_or.1 fun hmem => h (List.mem_cons.2 hmem)
    rw [List.cons_append, literalsFrom, if_neg (Ne.symm hc), ih hg]

theorem literalsFrom_plain {c : UInt8} (acc : Bytes) (hq : c ≠ 34) (hb : c ≠ 92) :
    literalsFrom (some acc) (c :: t) = literalsFrom (some (acc ++ [c])) t := by
  rw [literalsFrom.eq_4 _ _ _ fun e t' hc _ => hb hc, if_neg hq]

theorem literalsFrom_body (hb : BodyText b es) (acc : Bytes) :
    literalsFrom (some acc) (b ++ 34 :: rest) = (acc ++ b) :: literalsFrom none rest := by
  induction hb generalizing acc with
  | nil =>
    rw [List.nil_append, List.append_nil, literalsFrom.eq_4 _ _ _ fun e t' hc _ => by cases hc]
    rfl
  | raw hlo hq hb hbody ih =>
    rw [List.cons_append, literalsFrom_plain acc hq hb, ih, List.append_assoc]
    rfl
  | esc he hbody ih =>
    rw [List.cons_append, List.cons_append, literalsFrom, ih, List.append_assoc]
    rfl
  | @unit w x y z u t es hu hbody ih =>
    have hplain := hex4_plain hu
    simp only [List.mem_cons, List.not_mem_nil, or_false, forall_eq_or_imp, forall_eq] at hplain
    obtain ⟨hw, hx, hy, hz⟩ := hplain
    simp only [List.cons_append]
    rw [literalsFrom, literalsFrom_plain _ hw.1 hw.2.1, literalsFrom_plain _ hx.1 hx.2.1,
      literalsFrom_plain _ hy.1 hy.2.1, literalsFrom_plain _ hz.1 hz.2.1, ih]
    simp only [List.append_assoc, List.cons_append, List.nil_append]

theorem Layout.literals_eq (h : Layout t ls) : literals t = ls := by
  unfold literals
  induction h with
  | @last g hg =>
    rw [← List.append_nil g, literalsFrom_quiet hg.no_quote]
    rfl
  | lit hg hb hrest ih =>
    rw [literalsFrom_quiet hg.no_quote, literalsFrom, if_pos rfl, literalsFrom_body hb, ih]
    rfl

end Scan

/-! A literal without the backslashes of its escapes. -/
section Bare
variable {b : Bytes} {es : List StrElem}

def bare : Bytes → Bytes
  | [] => []
  | 92 :: c :: t => c :: bare t
  | c :: t => c :: bare t

/-- The only escapes are those of a quote, a backslash and a slash. -/
def plainEscapes : Bytes → Bool
  | [] => true
  | 92 :: c :: t => (c == 34 || c == 92 || c == 47) && plainEscapes t
  | _ :: t => plainEscapes t

theorem bare_raw {c : UInt8} {t : Bytes} (hb : c ≠ 92) :
    bare (c :: t) = c :: bare t ∧ plainEscapes (c :: t) = plainEscapes t :=
  ⟨bare.eq_3 _ _ fun _ _ hc _ => hb hc, plainEscapes.eq_3 _ _ fun _ _ hc _ => hb hc⟩

theorem bare_unit {w x y z : UInt8} {u : ℕ} {t : Bytes} (h : hex4 w x y z = some u) :
    bare (92 :: 117 :: w :: x :: y :: z :: t) = 117 :: w :: x :: y :: z :: bare t := by
  have hplain := hex4_plain h
  simp only [List.mem_cons, List.not_mem_nil, or_false, forall_eq_or_imp, forall_eq] at hplain
  obtain ⟨hw, hx, hy, hz⟩ := hplain
  rw [bare, (bare_raw hw.2.1).1, (bare_raw hx.2.1).1, (bare_raw hy.2.1).1, (bare_raw hz.2.1).1]

theorem utf8Put_length_le (u : ℕ) : (utf8Put u).length ≤ 4 := by
  unfold utf8Put
  split_ifs
  · exact Nat.le_add_left 1 3
  · exact Nat.le_add_left 2 2
  · exact Nat.le_add_left 3 1
  · exact le_rfl

/-- A unit in front adds four bytes at most. -/
theorem decode_unit_length_le (u : ℕ) (es : List StrElem) :
    (decode (.unit u :: es)).length ≤ (decode es).length + 4 := by
  have hu := utf8Put_length_le u
  match es with
  | [] =>
    have hdecode : decode [.unit u] = utf8Put u ++ decode [] := rfl
    rw [hdecode, List.length_append]
    omega
  | .byte c :: es =>
    have hdecode : decode (.unit u :: .byte c :: es) = utf8Put u ++ decode (.byte c :: es) := rfl
    rw [hdecode, List.length_append]
    omega
  | .unit v :: es =>
    have hlt := decode_length_lt v es
    rw [decode]
    split_ifs
    · rw [List.length_append, utf8Put_combine]
      omega
    · rw [List.length_append]
      omega

theorem decode_length_le (hb : BodyText b es) : (decode es).length ≤ (bare b).length := by
  induction hb with
  | nil => exact le_rfl
  | raw hlo hq hb hbody ih =>
    rw [(bare_raw hb).1, decode]
    exact Nat.succ_le_succ ih
  | esc he hbody ih =>
    rw [bare, decode]
    exact Nat.succ_le_succ ih
  | @unit w x y z u t es hu hbody ih =>
    have hunit := decode_unit_length_le u es
    rw [bare_unit hu]
    simp only [List.length_cons]
    omega

/-- An escape that stands for its own character is plain. -/
theorem simpleEscape_self {e x : UInt8} (he : simpleEscape e = some x) :
    e = x ↔ (e == 34 || e == 92 || e == 47) = true := by
  simp only [Bool.or_eq_true, beq_iff_eq]
  unfold simpleEscape at he
  split_ifs at he with hself hb hf hn hr ht
  · rw [or_assoc]
    exact ⟨fun _ => hself, fun _ => Option.some.inj he⟩
  all_goals
    obtain rfl := Option.some.inj he
    subst e
    decide

/-- What is left without backslashes is the string, if all escapes are plain. -/
theorem bare_eq_decode_iff (hb : BodyText b es) : bare b = decode es ↔ plainEscapes b = true := by
  induction hb with
  | nil => exact ⟨fun _ => rfl, fun _ => rfl⟩
  | raw hlo hq hb hbody ih =>
    rw [(bare_raw hb).1, (bare_raw hb).2, decode, List.cons_inj_right, ih]
  | @esc e x t es he hbody ih =>
    rw [bare, decode, plainEscapes, List.cons.injEq, ih, Bool.and_eq_true]
    exact and_congr_left fun _ => simpleEscape_self he
  | @unit w x y z u t es hu hbody ih =>
    have hlen := decode_length_le hbody
    have hunit := decode_unit_length_le u es
    have hlong : bare (92 :: 117 :: w :: x :: y :: z :: t) ≠ decode (.unit u :: es) := by
      intro heq
      have := congrArg List.length heq
      rw [bare_unit hu] at this
      simp only [List.length_cons] at this
      omega
    refine ⟨fun h => absurd h hlong, fun h => ?_⟩
    rw [plainEscapes] at h
    cases h

end Bare

end Ds4.Json
