import Ds4.Stream.MarkerScan

/-! Whether a text ends in thinking is what its last tag says, however the text was fed. -/
namespace Ds4.Stream

/-- The tag that starts thinking or ends it. -/
def thinkTag (inside : Bool) : Bytes := if inside then Chat.thinkOpen else Chat.thinkClose

/-- A tag stands behind `u`. -/
def TagAt (inside : Bool) (u s : Bytes) : Prop := u ++ thinkTag inside <+: s

/-- The last tag of a text. -/
structure LastTag (s : Bytes) (inside : Bool) : Prop where
  tag : ∃ u, TagAt inside u s ∧ ∀ other v, TagAt other v s → v.length ≤ u.length

/-- A flag that the last tag of a text overrides. -/
inductive Overridden (flag : Bool) (s : Bytes) : Bool → Prop
  | kept : (∀ inside u, ¬ TagAt inside u s) → Overridden flag s flag
  | set {inside : Bool} : LastTag s inside → Overridden flag s inside

section Tags
variable {inside other flag : Bool} {u v s : Bytes} {c : UInt8}

theorem length_thinkTag : (thinkTag inside).length = if inside then 7 else 8 := by
  cases inside <;> rfl

/-- Neither tag starts like the other. -/
theorem thinkTag_unique (h : thinkTag inside <+: s) (h' : thinkTag other <+: s) :
    inside = other := by
  have hsame := List.prefix_or_prefix_of_prefix h h'
  revert hsame
  cases inside <;> cases other <;> decide

/-- Neither tag ends like the other. -/
theorem thinkTag_unique_end (h : thinkTag inside <:+ s) (h' : thinkTag other <:+ s) :
    inside = other := by
  have hsame := List.suffix_or_suffix_of_suffix h h'
  revert hsame
  cases inside <;> cases other <;> decide

theorem TagAt.unique (h : TagAt inside u s) (h' : TagAt other v s) (hlen : u.length = v.length) :
    inside = other := by
  obtain ⟨x, rfl⟩ := h
  obtain ⟨y, hy⟩ := h'
  rw [List.append_assoc, List.append_assoc] at hy
  obtain ⟨rfl, htail⟩ := List.append_inj hy hlen.symm
  exact thinkTag_unique (List.prefix_append _ x) (htail ▸ List.prefix_append _ y)

theorem Overridden.unique {a b : Bool} (h : Overridden flag s a) (h' : Overridden flag s b) :
    a = b := by
  cases h with
  | kept hnone =>
    cases h' with
    | kept _ => rfl
    | set hlast =>
      obtain ⟨u, hu, -⟩ := hlast.tag
      exact absurd hu (hnone _ u)
  | set hlast =>
    obtain ⟨u, hu, hle⟩ := hlast.tag
    cases h' with
    | kept hnone => exact absurd hu (hnone _ u)
    | set hlast' =>
      obtain ⟨v, hv, hle'⟩ := hlast'.tag
      exact hu.unique hv (le_antisymm (hle' _ _ hu) (hle _ _ hv))

/-- A tag in a text with one more byte ends there or stood in the text. -/
theorem tagAt_snoc :
    TagAt inside u (s ++ [c]) ↔ u ++ thinkTag inside = s ++ [c] ∨ TagAt inside u s :=
  List.prefix_concat_iff

/-- A tag at the end is the last one. -/
theorem lastTag_of_suffix (h : thinkTag inside <:+ s) : LastTag s inside := by
  obtain ⟨u, rfl⟩ := h
  refine ⟨u, List.prefix_rfl, fun other v hv => ?_⟩
  have hlen := hv.length_le
  rw [List.length_append, List.length_append, length_thinkTag, length_thinkTag] at hlen
  by_contra hlater
  -- only the shorter tag could start later, and it would have to end where the longer one does
  have hends : thinkTag other <:+ u ++ thinkTag inside := by
    obtain ⟨x, hx⟩ := hv
    have hnil : x = [] := by
      have htotal := congrArg List.length hx
      simp only [List.length_append, length_thinkTag] at htotal
      apply List.length_eq_zero_iff.1
      cases inside <;> cases other <;> simp at htotal hlen <;> omega
    rw [← hx, hnil, List.append_nil]
    exact List.suffix_append v _
  have hsame := thinkTag_unique_end (List.suffix_append u _) hends
  rw [hsame] at hlen
  omega

/-- A byte that ends no tag changes nothing. -/
theorem overridden_snoc {a : Bool} (hopen : ¬ thinkTag true <:+ s ++ [c])
    (hclose : ¬ thinkTag false <:+ s ++ [c]) :
    Overridden flag (s ++ [c]) a ↔ Overridden flag s a := by
  have hsame : ∀ inside u, TagAt inside u (s ++ [c]) ↔ TagAt inside u s := by
    intro inside u
    rw [tagAt_snoc, or_iff_right_iff_imp]
    intro hend
    have hsuffix : thinkTag inside <:+ s ++ [c] := ⟨u, hend⟩
    cases inside with
    | true => exact absurd hsuffix hopen
    | false => exact absurd hsuffix hclose
  constructor
  · rintro (hnone | ⟨u, hu, hle⟩)
    · exact .kept fun inside u hu => hnone inside u ((hsame _ _).2 hu)
    · exact .set ⟨u, (hsame _ _).1 hu, fun other v hv => hle other v ((hsame _ _).2 hv)⟩
  · rintro (hnone | ⟨u, hu, hle⟩)
    · exact .kept fun inside u hu => hnone inside u ((hsame _ _).1 hu)
    · exact .set ⟨u, (hsame _ _).2 hu, fun other v hv => hle other v ((hsame _ _).1 hv)⟩

end Tags

section Runs
variable {flag : Bool}

/-- The flag behind a text that is fed whole. -/
theorem feed_overridden (flag : Bool) (s : Bytes) :
    Overridden flag s ((ThinkingState.init flag).feed s).inside := by
  induction s using List.reverseRecOn with
  | nil =>
    refine .kept fun inside u hu => ?_
    have hlen := hu.length_le
    rw [List.length_append, length_thinkTag, List.length_nil] at hlen
    cases inside <;> simp at hlen
  | append_singleton s c ih =>
    have hstep := @insideAt_succ (ThinkingState.init flag) (s ++ [c]) s.length (by simp)
    rw [insideAt_append (le_refl _), insideAt_length] at hstep
    have hwhole : (s ++ [c]).take (s.length + 1) = s ++ [c] := List.take_of_length_le (by simp)
    have hnow : insideAt (ThinkingState.init flag) (s ++ [c]) (s.length + 1) =
        ((ThinkingState.init flag).feed (s ++ [c])).inside := by
      unfold insideAt
      rw [hwhole]
    have htail : (ThinkingState.init flag).tail = [] := rfl
    rw [hnow, hwhole, htail, List.nil_append] at hstep
    rw [hstep]
    split_ifs with hopen hclose
    · exact .set (@lastTag_of_suffix true _ hopen)
    · exact .set (@lastTag_of_suffix false _ hclose)
    · exact (overridden_snoc hopen hclose).2 ih

theorem feed_flatten (st : ThinkingState) (pieces : List Bytes) :
    pieces.foldl ThinkingState.feed st = st.feed pieces.flatten := by
  induction pieces generalizing st with
  | nil => rfl
  | cons p pieces ih => rw [List.foldl_cons, ih, List.flatten_cons, feed_append]

/-- However a text is cut, the state is the one behind the whole text, and the flag is the first
one, overridden by the last tag. -/
theorem thinking_pieces (flag : Bool) (pieces : List Bytes) :
    pieces.foldl ThinkingState.feed (ThinkingState.init flag) =
        (ThinkingState.init flag).feed pieces.flatten ∧
      ∀ inside, (pieces.foldl ThinkingState.feed (ThinkingState.init flag)).inside = inside ↔
        Overridden flag pieces.flatten inside := by
  have hwhole := feed_flatten (ThinkingState.init flag) pieces
  refine ⟨hwhole, fun inside => ?_⟩
  rw [hwhole]
  constructor
  · rintro rfl
    exact feed_overridden flag _
  · intro h
    exact (feed_overridden flag _).unique h

end Runs

end Ds4.Stream
