import Ds4.Dsml.Tracker

/-! Where a tool block starts: the earliest start marker of any syntax, and why a search that
found none may be resumed near the end of the text. -/
namespace Ds4.Dsml
open Ds4.Search

/-- A start marker of `syn` stands at `p`. -/
def StartAt (raw : Bytes) (p : ℕ) (syn : DsmlSyntax) : Prop :=
  syn ∈ dsmlSyntaxes ∧ syn.toolCallsStart <+: raw.drop p

/-- The earliest start marker. -/
def Starts (raw : Bytes) (p : ℕ) (syn : DsmlSyntax) : Prop :=
  StartAt raw p syn ∧ ∀ p' syn', StartAt raw p' syn' → p ≤ p'

theorem starts_apart {syn syn' : DsmlSyntax} (h : syn ∈ dsmlSyntaxes) (h' : syn' ∈ dsmlSyntaxes)
    (hp : syn.toolCallsStart <+: syn'.toolCallsStart) : syn = syn' := by
  have key : ∀ a ∈ dsmlSyntaxes, ∀ b ∈ dsmlSyntaxes,
      a.toolCallsStart <+: b.toolCallsStart → a = b := by decide
  exact key _ h _ h' hp

theorem toolCallsStart_length_le {syn : DsmlSyntax} (h : syn ∈ dsmlSyntaxes) :
    syn.toolCallsStart.length ≤ dsmlMaxToolStartLen := by
  have key : ∀ a ∈ dsmlSyntaxes, a.toolCallsStart.length ≤ dsmlMaxToolStartLen := by decide
  exact key _ h

section Earliest
variable {raw : Bytes} {p p' : ℕ} {syn syn' : DsmlSyntax}

theorem StartAt.unique (h : StartAt raw p syn) (h' : StartAt raw p syn') : syn = syn' := by
  rcases List.prefix_or_prefix_of_prefix h.2 h'.2 with hp | hp
  · exact starts_apart h.1 h'.1 hp
  · exact (starts_apart h'.1 h.1 hp).symm

theorem Starts.unique (h : Starts raw p syn) (h' : Starts raw p' syn') : p = p' ∧ syn = syn' := by
  have hp : p = p' := le_antisymm (h.2 _ _ h'.1) (h'.2 _ _ h.1)
  subst hp
  exact ⟨rfl, h.1.unique h'.1⟩

theorem StartAt.lt_length (h : StartAt raw p syn) : p + syn.toolCallsStart.length ≤ raw.length := by
  have hlen := h.2.length_le
  have htag := syn.toolCallsStart_tag.2.2.1
  rw [List.length_drop] at hlen
  omega

theorem StartAt.found (h : StartAt raw p syn) :
    ∃ q ≤ p, find syn.toolCallsStart raw = some q := by
  cases hf : find syn.toolCallsStart raw with
  | none =>
    have := h.lt_length
    exact absurd h.2 (find_eq_none_iff.mp hf p (by omega))
  | some q =>
    refine ⟨q, ?_, rfl⟩
    by_contra hlt
    exact find_first hf (by omega : p < q) h.2

/-- One more syntax in the search for the earliest marker. -/
def earlier (raw : Bytes) (best : Option (ℕ × DsmlSyntax)) (syn : DsmlSyntax) :
    Option (ℕ × DsmlSyntax) :=
  match find syn.toolCallsStart raw, best with
  | none, best => best
  | some p, none => some (p, syn)
  | some p, some b => if p < b.1 then some (p, syn) else some b

/-- The best of the syntaxes tried so far. -/
def Best (raw : Bytes) (tried : List DsmlSyntax) : Option (ℕ × DsmlSyntax) → Prop
  | none => ∀ syn ∈ tried, find syn.toolCallsStart raw = none
  | some b => b.2 ∈ tried ∧ find b.2.toolCallsStart raw = some b.1 ∧
      ∀ syn ∈ tried, ∀ p, find syn.toolCallsStart raw = some p → b.1 ≤ p

theorem Best.step {tried : List DsmlSyntax} {best : Option (ℕ × DsmlSyntax)}
    (h : Best raw tried best) (syn : DsmlSyntax) :
    Best raw (tried ++ [syn]) (earlier raw best syn) := by
  unfold earlier
  cases hf : find syn.toolCallsStart raw with
  | none =>
    cases best with
    | none =>
      intro s hs
      rcases List.mem_append.mp hs with hs | hs
      · exact h s hs
      · rwa [List.mem_singleton.mp hs]
    | some b =>
      refine ⟨List.mem_append_left _ h.1, h.2.1, fun s hs p hp => ?_⟩
      rcases List.mem_append.mp hs with hs | hs
      · exact h.2.2 s hs p hp
      · rw [List.mem_singleton.mp hs, hf] at hp
        cases hp
  | some q =>
    cases best with
    | none =>
      refine ⟨by simp, hf, fun s hs p hp => ?_⟩
      rcases List.mem_append.mp hs with hs | hs
      · rw [h s hs] at hp
        cases hp
      · rw [List.mem_singleton.mp hs, hf] at hp
        exact (Option.some.inj hp).le
    | some b =>
      dsimp only
      split_ifs with hlt
      · refine ⟨by simp, hf, fun s hs p hp => ?_⟩
        rcases List.mem_append.mp hs with hs | hs
        · have := h.2.2 s hs p hp
          omega
        · rw [List.mem_singleton.mp hs, hf] at hp
          exact (Option.some.inj hp).le
      · refine ⟨List.mem_append_left _ h.1, h.2.1, fun s hs p hp => ?_⟩
        rcases List.mem_append.mp hs with hs | hs
        · exact h.2.2 s hs p hp
        · rw [List.mem_singleton.mp hs, hf] at hp
          have := Option.some.inj hp
          omega

theorem best_foldl (raw : Bytes) (l : List DsmlSyntax) :
    Best raw l (l.foldl (earlier raw) none) := by
  induction l using List.reverseRecOn with
  | nil =>
    intro syn hs
    simp at hs
  | append_singleton l syn ih =>
    rw [List.foldl_append]
    exact ih.step syn

theorem dsmlFindToolStart_eq (raw : Bytes) :
    dsmlFindToolStart raw = (dsmlSyntaxes.foldl (earlier raw) none).map
      fun b => (b.1 + b.2.toolCallsStart.length, b.2) := rfl

/-- The search finds the earliest marker, if there is one. -/
theorem dsmlFindToolStart_none :
    dsmlFindToolStart raw = none ↔ ∀ p syn, ¬ StartAt raw p syn := by
  have hbest := best_foldl raw dsmlSyntaxes
  rw [dsmlFindToolStart_eq]
  cases hb : dsmlSyntaxes.foldl (earlier raw) none with
  | none =>
    rw [hb] at hbest
    refine ⟨fun _ p syn h => ?_, fun _ => rfl⟩
    obtain ⟨q, -, hq⟩ := h.found
    rw [hbest syn h.1] at hq
    cases hq
  | some b =>
    rw [hb] at hbest
    refine ⟨fun h => by simp at h, fun h => ?_⟩
    exact absurd ⟨hbest.1, (find_some hbest.2.1).1⟩ (h b.1 b.2)

theorem dsmlFindToolStart_some {pos : ℕ} :
    dsmlFindToolStart raw = some (pos, syn) ↔
      ∃ p, Starts raw p syn ∧ pos = p + syn.toolCallsStart.length := by
  have hbest := best_foldl raw dsmlSyntaxes
  have hstarts : ∀ b, dsmlSyntaxes.foldl (earlier raw) none = some b → Starts raw b.1 b.2 := by
    intro b hb
    rw [hb] at hbest
    refine ⟨⟨hbest.1, (find_some hbest.2.1).1⟩, fun p' syn' h' => ?_⟩
    obtain ⟨q, hq, hf⟩ := h'.found
    exact (hbest.2.2 syn' h'.1 q hf).trans hq
  rw [dsmlFindToolStart_eq]
  constructor
  · intro h
    obtain ⟨b, hb, hbe⟩ := Option.map_eq_some_iff.mp h
    obtain ⟨rfl, rfl⟩ := Prod.mk.inj hbe
    exact ⟨b.1, hstarts b hb, rfl⟩
  · rintro ⟨p, hp, rfl⟩
    cases hb : dsmlSyntaxes.foldl (earlier raw) none with
    | none =>
      have := dsmlFindToolStart_none.mp (by rw [dsmlFindToolStart_eq, hb]; rfl) p syn
      exact absurd hp.1 this
    | some b =>
      obtain ⟨h1, h2⟩ := (hstarts b hb).unique hp
      simp [h1, h2]

end Earliest

section Growth
variable {q q' : Bytes} {p : ℕ} {syn : DsmlSyntax}

theorem prefix_drop_drop (h : q <+: q') (p : ℕ) : q.drop p <+: q'.drop p := by
  obtain ⟨x, rfl⟩ := h
  rw [List.drop_append]
  exact List.prefix_append _ _

theorem StartAt.mono (h : StartAt q p syn) (hq : q <+: q') : StartAt q' p syn :=
  ⟨h.1, h.2.trans (prefix_drop_drop hq p)⟩

/-- A marker of the longer text stands in the shorter one or reaches beyond it. -/
theorem StartAt.of_growth (h : StartAt q' p syn) (hq : q <+: q') :
    StartAt q p syn ∨ q.length < p + syn.toolCallsStart.length := by
  by_cases hlen : p + syn.toolCallsStart.length ≤ q.length
  · refine Or.inl ⟨h.1, List.prefix_of_prefix_length_le h.2 (prefix_drop_drop hq p) ?_⟩
    rw [List.length_drop]
    omega
  · exact Or.inr (by omega)

/-- Two markers do not overlap: a later one begins behind the earlier one. -/
theorem StartAt.no_overlap {p' : ℕ} {syn' : DsmlSyntax} (h : StartAt q p syn)
    (h' : StartAt q p' syn') (hlt : p < p') : p + syn.toolCallsStart.length ≤ p' := by
  obtain ⟨u, hu, hmem⟩ := syn.toolCallsStart_tag.cons
  obtain ⟨u', hu', -⟩ := syn'.toolCallsStart_tag.cons
  obtain ⟨y, hy⟩ := h'.2
  have hsplit : q.drop p = (q.drop p).take (p' - p) ++ 60 :: (u' ++ y) := by
    conv_lhs => rw [← List.take_append_drop (p' - p) (q.drop p)]
    rw [List.drop_drop, show p + (p' - p) = p' by omega, ← hy, hu', List.cons_append]
  have hp := h.2
  rw [hsplit, hu] at hp
  have hlen : ((q.drop p).take (p' - p)).length ≤ p' - p := List.length_take_le _ _
  cases hx : (q.drop p).take (p' - p) with
  | nil =>
    have := h'.lt_length
    have := syn'.toolCallsStart_tag.2.2.1
    have : ((q.drop p).take (p' - p)).length = p' - p := by
      rw [List.length_take, List.length_drop]
      omega
    rw [hx, List.length_nil] at this
    omega
  | cons c x =>
    rw [hx, List.cons_append] at hp
    have hle := (prefix_before hmem (List.cons_prefix_cons.mp hp).2).length_le
    rw [hx, List.length_cons] at hlen
    rw [hu, List.length_cons]
    omega

theorem Starts.mono (h : Starts q p syn) (hq : q <+: q') : Starts q' p syn := by
  refine ⟨h.1.mono hq, fun p' syn' h' => ?_⟩
  rcases h'.of_growth hq with hin | hout
  · exact h.2 _ _ hin
  · by_contra hlt
    have := h'.no_overlap (h.1.mono hq) (by omega)
    have := h.1.lt_length
    omega

/-- A marker that is found stays the one that is found. -/
theorem dsmlFindToolStart_mono {pos : ℕ} (h : dsmlFindToolStart q = some (pos, syn))
    (hq : q <+: q') : dsmlFindToolStart q' = some (pos, syn) := by
  obtain ⟨p, hp, hpos⟩ := dsmlFindToolStart_some.mp h
  exact dsmlFindToolStart_some.mpr ⟨p, hp.mono hq, hpos⟩

theorem startAt_drop {s : ℕ} : StartAt (q.drop s) p syn ↔ StartAt q (s + p) syn := by
  simp [StartAt, List.drop_drop]

/-- Where no marker begins before `s`, the search may start at `s`. -/
theorem dsmlFindToolStartFrom_eq {s : ℕ} (h : ∀ p syn, StartAt q p syn → s ≤ p) :
    dsmlFindToolStartFrom q s = dsmlFindToolStart q := by
  unfold dsmlFindToolStartFrom
  cases hf : dsmlFindToolStart (q.drop s) with
  | none =>
    symm
    refine dsmlFindToolStart_none.mpr fun p syn hp => ?_
    have hs := h p syn hp
    refine dsmlFindToolStart_none.mp hf (p - s) syn (startAt_drop.mpr ?_)
    rwa [show s + (p - s) = p by omega]
  | some x =>
    obtain ⟨p, hp, hx⟩ := dsmlFindToolStart_some.mp hf
    symm
    refine dsmlFindToolStart_some.mpr ⟨s + p, ⟨startAt_drop.mp hp.1, fun p' syn' h' => ?_⟩, ?_⟩
    · have hs := h p' syn' h'
      have := hp.2 (p' - s) syn' (startAt_drop.mpr (by rwa [show s + (p' - s) = p' by omega]))
      omega
    · omega

/-- Resuming a failed search one marker's length before the end misses nothing. -/
theorem dsmlFindToolStartFrom_resume (h : dsmlFindToolStart q = none) (hq : q <+: q') :
    dsmlFindToolStartFrom q' (q.length - dsmlMaxToolStartLen) = dsmlFindToolStart q' := by
  refine dsmlFindToolStartFrom_eq fun p syn hp => ?_
  rcases hp.of_growth hq with hin | hout
  · exact absurd hin (dsmlFindToolStart_none.mp h p syn)
  · have := toolCallsStart_length_le hp.1
    omega

end Growth

end Ds4.Dsml
