import Ds4.Dsml.Syntax
import Mathlib.Data.List.Find

/-! What the escapers write is read back: attribute values always, parameter bodies
exactly when they hold no entity. -/
namespace Ds4.Dsml
open Ds4.Search

section Attributes

theorem unescape_attrEscapedChar (c : UInt8) (s : Bytes) :
    dsmlUnescapeText (dsmlAttrEscapedChar c ++ s) = c :: dsmlUnescapeText s := by
  unfold dsmlAttrEscapedChar
  split_ifs with h1 h2 h3 h4
  · subst h1
    exact unescape_entity (e := (lit "&amp;", 38)) (t := lit "amp;") rfl rfl
  · subst h2
    exact unescape_entity (e := (lit "&lt;", 60)) (t := lit "lt;") rfl rfl
  · subst h3
    exact unescape_entity (e := (lit "&gt;", 62)) (t := lit "gt;") rfl rfl
  · subst h4
    exact unescape_entity (e := (lit "&quot;", 34)) (t := lit "quot;") rfl rfl
  · exact unescape_cons_ne h1

theorem unescape_attrEscaped (s : Bytes) : dsmlUnescapeText (dsmlAttrEscaped s) = s := by
  induction s with
  | nil => rfl
  | cons c s ih =>
    rw [dsmlAttrEscaped, List.flatMap_cons, unescape_attrEscapedChar]
    exact congrArg _ ih

private theorem attrEscapedChar_clean (c : UInt8) :
    ∀ x ∈ dsmlAttrEscapedChar c, x ≠ 34 ∧ x ≠ 60 ∧ x ≠ 62 := by
  unfold dsmlAttrEscapedChar
  split_ifs with h1 h2 h3 h4
  · decide +kernel
  · decide +kernel
  · decide +kernel
  · decide +kernel
  · intro x hx
    obtain rfl := List.mem_singleton.mp hx
    exact ⟨h4, h2, h3⟩

/-- An escaped attribute holds no delimiter of a tag. -/
theorem attrEscaped_clean {s : Bytes} {x : UInt8} (h : x ∈ dsmlAttrEscaped s) :
    x ≠ 34 ∧ x ≠ 60 ∧ x ≠ 62 := by
  obtain ⟨c, -, hx⟩ := List.mem_flatMap.mp h
  exact attrEscapedChar_clean c x hx

private theorem letter_plain : ∀ d ∈ lit "string=", d ∉ [38, 60, 62, 34, 59] := by decide +kernel

private theorem attrEscapedChar_plain {c : UInt8} (h : c ∈ lit "string=") :
    dsmlAttrEscapedChar c = [c] := by
  have := letter_plain c h
  simp only [List.mem_cons, List.not_mem_nil, or_false, not_or] at this
  simp [dsmlAttrEscapedChar, this]

private theorem attrEscapedChar_last (c : UInt8) {d : UInt8} (hd : d ∈ lit "string=")
    (hc : c ≠ d) : (dsmlAttrEscapedChar c).getLast? ≠ some d := by
  have hsemi : d ≠ 59 := fun h => letter_plain d hd (by simp [h])
  unfold dsmlAttrEscapedChar
  split_ifs
  · exact fun h => hsemi (Option.some.inj h).symm
  · exact fun h => hsemi (Option.some.inj h).symm
  · exact fun h => hsemi (Option.some.inj h).symm
  · exact fun h => hsemi (Option.some.inj h).symm
  · simpa using hc

private theorem attrEscapedChar_ne_nil (c : UInt8) : dsmlAttrEscapedChar c ≠ [] := by
  unfold dsmlAttrEscapedChar
  split_ifs <;> simp [lit]

/-- Letters that no entity ends with are the last ones of the escaped text exactly when
they are the last ones of the text. -/
theorem suffix_attrEscaped {w s : Bytes} (hw : ∀ d ∈ w, d ∈ lit "string=") :
    w <:+ dsmlAttrEscaped s ↔ w <:+ s := by
  induction s using List.reverseRecOn generalizing w with
  | nil => rfl
  | append_singleton s c ih =>
    induction w using List.reverseRecOn with
    | nil => simp
    | append_singleton w d _ =>
      have hd := hw d (by simp)
      have hsplit : dsmlAttrEscaped (s ++ [c]) = dsmlAttrEscaped s ++ dsmlAttrEscapedChar c := by
        simp [dsmlAttrEscaped]
      by_cases hc : c = d
      · subst hc
        rw [hsplit, attrEscapedChar_plain hd, List.suffix_append_self_iff,
          List.suffix_append_self_iff]
        exact ih fun x hx => hw x (by simp [hx])
      · have hend {x : Bytes} (h : w ++ [d] <:+ x) : x.getLast? = some d :=
          List.singleton_suffix_iff_getLast?_eq_some.mp ((List.suffix_append w [d]).trans h)
        have h1 : ¬ w ++ [d] <:+ dsmlAttrEscaped (s ++ [c]) := fun h => by
          have := hend h
          rw [hsplit, List.getLast?_append_of_ne_nil _ (attrEscapedChar_ne_nil c)] at this
          exact attrEscapedChar_last c hd hc this
        have h2 : ¬ w ++ [d] <:+ s ++ [c] := fun h => hc (by simpa using hend h)
        simp only [h1, h2]

end Attributes

section Bodies

/-- No entity stands in the text. -/
def EntityFree (s : Bytes) : Prop := ∀ e ∈ entities, ¬ e.1 <:+: s

instance (s : Bytes) : Decidable (EntityFree s) :=
  inferInstanceAs (Decidable (∀ e ∈ entities, ¬ e.1 <:+: s))

theorem paramGuard_ok : ∀ rep ∈ [lit "&lt;", lit "\\u003c"], GuardOk dsmlLong.paramEnd rep := by
  intro rep h
  constructor <;> revert rep <;> decide +kernel

private theorem entities_shape : ∀ e ∈ entities, e.1.head? = some 38 ∧ 60 ∉ e.1 ∧ 38 ∉ e.1.tail ∧
    1 < e.1.length := by
  decide

theorem entityAt_none_iff {s : Bytes} : entityAt s = none ↔ ∀ e ∈ entities, ¬ e.1 <+: s := by
  simp [entityAt]

theorem parameterText_plain {x s : Bytes} (h : 60 ∉ x) :
    dsmlParameterText (x ++ s) = x ++ dsmlParameterText s :=
  guarded_append_plain (fun c hc => by
    obtain rfl : 60 = c := Option.some.inj hc
    exact h) (by decide)

/-- The guard neither makes nor breaks an entity. -/
theorem entityAt_guarded (s : Bytes) :
    entityAt (38 :: dsmlParameterText s) = entityAt (38 :: s) := by
  unfold entityAt
  refine List.find?_congr fun e he => ?_
  obtain ⟨hhead, hless, hamp, -⟩ := entities_shape e he
  cases h1 : e.1 with
  | nil => simp [h1] at hhead
  | cons a t =>
    rw [h1] at hhead hless hamp
    obtain rfl : a = 38 := by simpa using hhead
    congr 1
    simp only [List.cons_prefix_cons, true_and, eq_iff_iff]
    constructor
    · exact prefix_of_prefix_guarded (by decide) fun r hr => by
        obtain rfl : 38 = r := Option.some.inj hr
        exact hamp
    · rintro ⟨u, rfl⟩
      rw [parameterText_plain fun hm => hless (List.mem_cons_of_mem _ hm)]
      exact List.prefix_append ..

theorem entityFree_cons {c : UInt8} {s : Bytes} :
    EntityFree (c :: s) ↔ entityAt (c :: s) = none ∧ EntityFree s := by
  simp only [EntityFree, entityAt_none_iff, List.infix_cons_iff, not_or]
  exact ⟨fun h => ⟨fun e he => (h e he).1, fun e he => (h e he).2⟩,
    fun h e he => ⟨h.1 e he, h.2 e he⟩⟩

private theorem unescape_parameterText_aux (n : ℕ) (s : Bytes) (hn : s.length ≤ n) :
    (dsmlUnescapeText (dsmlParameterText s)).length ≤ s.length ∧
      (dsmlUnescapeText (dsmlParameterText s) = s ↔ EntityFree s) := by
  induction n generalizing s with
  | zero =>
    obtain rfl := List.length_eq_zero_iff.mp (Nat.le_zero.mp hn)
    exact ⟨by decide, by decide⟩
  | succ n ih =>
    cases s with
    | nil => exact ⟨by decide, by decide⟩
    | cons c s =>
      obtain ⟨hlen, hiff⟩ := ih s (by simpa using hn)
      have hcons (hne : entityAt (c :: s) = none)
          (hu : dsmlUnescapeText (dsmlParameterText (c :: s)) =
            c :: dsmlUnescapeText (dsmlParameterText s)) :
          (dsmlUnescapeText (dsmlParameterText (c :: s))).length ≤ (c :: s).length ∧
            (dsmlUnescapeText (dsmlParameterText (c :: s)) = c :: s ↔ EntityFree (c :: s)) := by
        rw [hu, entityFree_cons]
        simpa [hne, hiff] using hlen
      by_cases hp : dsmlLong.paramEnd <+: c :: s
      · have hhead : 60 :: dsmlLong.paramEnd.tail <+: c :: s := hp
        obtain rfl : 60 = c := (List.cons_prefix_cons.mp hhead).1
        refine hcons (entityAt_cons_ne (by decide)) ?_
        have hg : dsmlParameterText (60 :: s) = 38 :: (lit "lt;" ++ dsmlParameterText s) :=
          if_pos hp
        rw [hg]
        exact unescape_entity (e := (lit "&lt;", 60)) rfl rfl
      · have hg : dsmlParameterText (c :: s) = c :: dsmlParameterText s := if_neg hp
        by_cases hc : c = 38
        · subst hc
          have hent := entityAt_guarded s
          cases he : entityAt (38 :: s) with
          | none =>
            refine hcons he ?_
            rw [hg, unescape_cons (hent.trans he)]
          | some e =>
            obtain ⟨hmem, hpre⟩ := entityAt_some he
            obtain ⟨-, hless, -, hlong⟩ := entities_shape e hmem
            cases h1 : e.1 with
            | nil => simp [h1] at hlong
            | cons a t =>
              rw [h1] at hpre hless hlong
              obtain ⟨rfl, u, rfl⟩ := List.cons_prefix_cons.mp hpre
              have hplain := parameterText_plain (x := t) (s := u)
                fun hm => hless (List.mem_cons_of_mem _ hm)
              have hval : dsmlUnescapeText (dsmlParameterText (38 :: (t ++ u))) =
                  e.2 :: dsmlUnescapeText (dsmlParameterText u) := by
                rw [hg, hplain]
                exact unescape_entity (by rw [← hplain, hent, he]) h1
              have hu := (ih u (by simp at hn; omega)).1
              have hshort : (dsmlUnescapeText (dsmlParameterText (38 :: (t ++ u)))).length <
                  (38 :: (t ++ u)).length := by
                rw [hval]
                simp at hlong ⊢
                omega
              refine ⟨hshort.le, ⟨fun h => ?_, fun h => ?_⟩⟩
              · rw [h] at hshort
                exact absurd hshort (lt_irrefl _)
              · rw [entityFree_cons, he] at h
                simp at h
        · refine hcons (entityAt_cons_ne hc) ?_
          rw [hg, unescape_cons_ne hc]

/-- A string body comes back exactly when it holds no entity: the escaper leaves `&` alone,
but the reader replaces every entity. -/
theorem unescape_parameterText_iff (s : Bytes) :
    dsmlUnescapeText (dsmlParameterText s) = s ↔ EntityFree s :=
  (unescape_parameterText_aux s.length s le_rfl).2

theorem unescape_parameterText_length (s : Bytes) :
    (dsmlUnescapeText (dsmlParameterText s)).length ≤ s.length :=
  (unescape_parameterText_aux s.length s le_rfl).1

end Bodies

end Ds4.Dsml
