import Ds4.Dsml.ToolStart
import Ds4.Dsml.Block

/-! Runs of the tracker over growing prefixes. Unless an update is cut right behind the `<` of
a closing tag, the tracker stands where a fresh run over the whole prefix would stand, and so
at the state that the walk over the tool block leads to. -/
namespace Ds4.Dsml
open Ds4.Search Ds4.Resumable

section Machine
variable {raw : Bytes} {dt dt' : TrackPoint} {out : List Empty}

theorem dsmlFindToolStartFrom_lt {start pos : ℕ} {syn : DsmlSyntax}
    (h : dsmlFindToolStartFrom raw start = some (pos, syn)) : start < pos ∧ pos ≤ raw.length := by
  obtain ⟨x, hx, hxe⟩ := Option.map_eq_some_iff.mp h
  obtain ⟨rfl, -⟩ := Prod.mk.inj hxe
  obtain ⟨p, hp, hpos⟩ := dsmlFindToolStart_some.mp (show _ = some (x.1, x.2) from hx)
  have hlen := hp.1.lt_length
  have := x.2.toolCallsStart_tag.2.2.1
  rw [List.length_drop] at hlen
  omega

theorem find_lt_length {s : Bytes} {i : ℕ} (h : find [62] s = some i) : i < s.length := by
  have := (find_some h).1.length_le
  rw [List.length_drop] at this
  simp only [List.length_cons, List.length_nil] at this
  omega

theorem prefix_drop_le {t : Bytes} {pos : ℕ} (ht : 2 < t.length) (h : t <+: raw.drop pos) :
    pos < pos + t.length ∧ pos + t.length ≤ raw.length := by
  have := h.length_le
  rw [List.length_drop] at this
  omega

/-- Every step that goes on reads something. -/
theorem trackStep_go (h : trackStep raw dt = .go dt' out) :
    dt.pos < dt'.pos ∧ dt'.pos ≤ raw.length := by
  obtain ⟨mode, pos⟩ := dt
  cases mode with
  | done => cases h
  | search =>
    simp only [trackStep] at h
    cases hf : dsmlFindToolStartFrom raw pos with
    | none => rw [hf] at h; cases h
    | some x =>
      rw [hf] at h
      cases h
      exact dsmlFindToolStartFrom_lt hf
  | stringBody syn =>
    simp only [trackStep] at h
    split_ifs at h with hlt hend
    · cases h
      exact prefix_drop_le syn.paramEnd_tag.2.2.1 hend
    · cases h
      exact ⟨Nat.lt_succ_self _, hlt⟩
  | jsonParam syn inString escaped =>
    simp only [trackStep] at h
    cases hr : raw.drop pos with
    | nil => rw [hr] at h; cases h
    | cons c rest =>
      have hlt := congrArg List.length hr
      rw [List.length_drop, List.length_cons] at hlt
      rw [hr] at h
      dsimp only at h
      split_ifs at h with hend
      · cases h
        exact prefix_drop_le syn.paramEnd_tag.2.2.1 (hr ▸ hend.2)
      · cases h
        dsimp only
        omega
  | structural syn =>
    simp only [trackStep] at h
    cases hr : raw.drop pos with
    | nil => rw [hr] at h; cases h
    | cons c rest =>
      have hlt := congrArg List.length hr
      rw [List.length_drop, List.length_cons] at hlt
      rw [hr] at h
      dsimp only at h
      split_ifs at h with hws htools hinvoke hstart hparam
      · cases h
        dsimp only
        omega
      · cases h
        exact prefix_drop_le syn.invokeEnd_tag.2.2.1 (hr ▸ hinvoke)
      all_goals
        cases hf : find [62] (c :: rest) with
        | none => rw [hf] at h; cases h
        | some i =>
          have hi := find_lt_length hf
          rw [hf] at h
          dsimp only at h
          try split_ifs at h
          all_goals
            cases h
            simp only [List.length_cons] at hi
            dsimp only
            omega

def trackMachine : Machine Bytes TrackPoint Empty DsmlDecodeState where
  step := trackStep
  left q dt := q.length - dt.pos
  left_lt h := by
    have := trackStep_go h
    omega

structure DsmlDecodeTracker where
  point : TrackPoint
  decode : DsmlDecodeState

def dsmlDecodeTrackerInit : DsmlDecodeTracker := ⟨⟨.search, 0⟩, .outside⟩

def dsmlDecodeTrackerUpdate (dt : DsmlDecodeTracker) (raw : Bytes) : DsmlDecodeTracker :=
  match trackMachine.run raw dt.point with
  | some r => ⟨r.state, r.verdict⟩
  | none => dt

theorem update_runs (dt : DsmlDecodeTracker) (raw : Bytes) :
    trackMachine.Runs raw dt.point
      ⟨(dsmlDecodeTrackerUpdate dt raw).point, [], (dsmlDecodeTrackerUpdate dt raw).decode⟩ := by
  obtain ⟨r, hr⟩ := trackMachine.exists_runs raw dt.point
  have hrun := Machine.run_eq_iff.mpr hr
  obtain ⟨state, out, verdict⟩ := r
  obtain rfl : out = [] := List.eq_nil_iff_forall_not_mem.mpr fun a => a.elim
  simpa only [dsmlDecodeTrackerUpdate, hrun] using hr

end Machine

section Resume

/-- The update with the text `q` does not start right behind the `<` of a closing tag that `q`
goes on with. -/
def CutOk (dt : TrackPoint) (q : Bytes) : Prop :=
  ∀ syn, dt.mode = .stringBody syn ∨ (∃ escaped, dt.mode = .jsonParam syn false escaped) →
    ¬ syn.paramEnd <+: q.drop (dt.pos - 1) ∧ ¬ Held syn (q.drop (dt.pos - 1))

theorem rawPartialLitMin_iff {raw : Bytes} {pos : ℕ} {syn : DsmlSyntax} :
    rawPartialLitMin raw pos syn.paramEnd 2 = true ↔ Held syn (raw.drop pos) := by
  simp [rawPartialLitMin, Held, and_assoc]

/-- A closing tag that comes into sight only in the longer text began with the last byte. -/
theorem length_eq_one_of_growth {syn : DsmlSyntax} {t t' : Bytes} (ht : t <+: t') (hne : t ≠ [])
    (hend : ¬ syn.paramEnd <+: t) (hheld : ¬ Held syn t)
    (h : syn.paramEnd <+: t' ∨ Held syn t') : t.length = 1 := by
  have hpre : t <+: syn.paramEnd := by
    rcases h with h | h
    · exact (List.prefix_or_prefix_of_prefix h ht).resolve_left hend
    · exact ht.trans h.2.2
  have hlt : t.length < syn.paramEnd.length := by
    refine lt_of_le_of_ne hpre.length_le fun he => hend ?_
    rw [hpre.eq_of_length he]
  have hpos : t.length ≠ 0 := fun h0 => hne (List.length_eq_zero_iff.mp h0)
  by_contra hone
  exact hheld ⟨by omega, hlt, hpre⟩

theorem head_of_growth {syn : DsmlSyntax} {c : UInt8} {t t' : Bytes} (ht : c :: t <+: t')
    (h : syn.paramEnd <+: t' ∨ Held syn t') : c = 60 := by
  obtain ⟨u, hu, -⟩ := syn.paramEnd_tag.cons
  obtain ⟨x, rfl⟩ := ht
  rcases h with h | h
  · rw [hu] at h
    exact (List.cons_prefix_cons.mp h).1.symm
  · have := h.2.2
    rw [hu] at this
    exact (List.cons_prefix_cons.mp this).1

theorem not_prefix_of_apart {a b s : Bytes} (h : ¬ a <+: b ∧ ¬ b <+: a)
    (hb : b <+: s) : ¬ a <+: s := fun ha =>
  (List.prefix_or_prefix_of_prefix ha hb).elim h.1 h.2

theorem find_mono {pat s s' : Bytes} {i : ℕ} (hs : s <+: s') (h : find pat s = some i) :
    find pat s' = some i := by
  have hf := find_eq_some_iff.mp h
  refine find_eq_some_iff.mpr ⟨⟨hf.1.1.trans (prefix_drop_drop hs i),
    hf.1.2.trans hs.length_le⟩, fun j hj hp => hf.2 j hj ?_⟩
  refine List.prefix_of_prefix_length_le hp (prefix_drop_drop hs j) ?_
  have := hf.1.1.length_le
  rw [List.length_drop] at this ⊢
  omega

variable {q q' : Bytes} {dt dt' : TrackPoint} {out : List Empty}

/-- The search has not been left behind. -/
def Fresh (dt : TrackPoint) : Prop := dt.mode = .search → dt.pos = 0

theorem fresh_step (h : trackStep q dt = .go dt' out) : Fresh dt' := by
  intro hm
  obtain ⟨mode, pos⟩ := dt'
  obtain rfl : mode = .search := hm
  unfold trackStep at h
  dsimp only at h
  split at h
  · cases h
  · split at h <;> cases h
  · split_ifs at h <;> cases h
  · split at h
    · cases h
    · split_ifs at h <;> cases h
  · split at h
    · cases h
    · split_ifs at h
      all_goals first | cases h | (split at h <;> try split_ifs at h) <;> cases h

/-- A wait right at the end of the text is where the run stops. -/
theorem stop_at_end {r : Stop TrackPoint Empty DsmlDecodeState} {b : DsmlDecodeState}
    (h : trackMachine.Runs q dt r) (hs : trackStep q dt = .wait dt b) : r.state = dt := by
  rw [h.unique (.wait hs)]

theorem go_mono_stringBody {syn : DsmlSyntax} {pos : ℕ} (hq : q <+: q')
    {t r : Stop TrackPoint Empty DsmlDecodeState} (hcut : CutOk r.state q')
    (h : trackStep q ⟨.stringBody syn, pos⟩ = .go dt' out) (ht : trackMachine.Runs q dt' t)
    (htr : t.state = r.state) : trackStep q' ⟨.stringBody syn, pos⟩ = .go dt' out := by
  have hdrop := prefix_drop_drop hq pos
  simp only [trackStep] at h ⊢
  split_ifs at h with hlt hend hpart
  · rw [if_pos (hlt.trans_le hq.length_le), if_pos (hend.trans hdrop)]
    exact h
  · rw [rawPartialLitMin_iff] at hpart
    obtain rfl := (Progress.go.inj h).1
    have hnone : ¬ (syn.paramEnd <+: q'.drop pos ∨ Held syn (q'.drop pos)) := by
      intro hgrow
      have hone := length_eq_one_of_growth hdrop
        (by rw [ne_eq, List.drop_eq_nil_iff]; omega) hend hpart hgrow
      rw [List.length_drop] at hone
      have hstop := stop_at_end ht (b := .stringBody)
        (by simp only [trackStep, if_neg (show ¬ pos + 1 < q.length by omega)])
      have hok := hcut syn (Or.inl (by rw [← htr, hstop]))
      rw [← htr, hstop] at hok
      exact hgrow.elim hok.1 hok.2
    rw [if_pos (hlt.trans_le hq.length_le), if_neg fun he => hnone (Or.inl he),
      if_neg fun he => hnone (Or.inr (rawPartialLitMin_iff.mp he))]
    exact h

theorem go_mono_jsonParam {syn : DsmlSyntax} {inString escaped : Bool} {pos : ℕ} (hq : q <+: q')
    {t r : Stop TrackPoint Empty DsmlDecodeState} (hcut : CutOk r.state q')
    (h : trackStep q ⟨.jsonParam syn inString escaped, pos⟩ = .go dt' out)
    (ht : trackMachine.Runs q dt' t) (htr : t.state = r.state) :
    trackStep q' ⟨.jsonParam syn inString escaped, pos⟩ = .go dt' out := by
  have hdrop := prefix_drop_drop hq pos
  simp only [trackStep] at h ⊢
  cases hr : q.drop pos with
  | nil => rw [hr] at h; cases h
  | cons c rest =>
    rw [hr] at h hdrop
    obtain ⟨x, hx⟩ := hdrop
    rw [← hx, List.cons_append]
    dsimp only at h ⊢
    have hdrop : c :: rest <+: c :: (rest ++ x) := ⟨x, rfl⟩
    split_ifs at h with hend hpart
    · rw [if_pos ⟨hend.1, hend.2.trans hdrop⟩]
      exact h
    · rw [rawPartialLitMin_iff, hr] at hpart
      obtain rfl := (Progress.go.inj h).1
      have hnone : ¬ (inString = false ∧
          (syn.paramEnd <+: c :: (rest ++ x) ∨ Held syn (c :: (rest ++ x)))) := by
        rintro ⟨rfl, hgrow⟩
        have hone := length_eq_one_of_growth hdrop (List.cons_ne_nil _ _)
          (fun he => hend ⟨rfl, he⟩) (fun he => hpart ⟨rfl, he⟩) hgrow
        obtain rfl := head_of_growth hdrop hgrow
        have hlen := congrArg List.length hr
        rw [List.length_drop, hone] at hlen
        have hadv : jsonAdvance false escaped 60 = (false, escaped) := by
          simp [jsonAdvance]
        rw [hadv] at ht
        have hnil : q.drop (pos + 1) = [] := List.drop_eq_nil_iff.mpr (by omega)
        have hstop := stop_at_end ht (b := .jsonStructural) (by simp [trackStep, hnil])
        have hok := hcut syn (Or.inr ⟨escaped, by rw [← htr, hstop]⟩)
        rw [← htr, hstop, Nat.add_sub_cancel, ← hx, List.cons_append] at hok
        exact hgrow.elim hok.1 hok.2
      rw [if_neg fun he => hnone ⟨he.1, Or.inl he.2⟩, if_neg fun he => hnone ⟨he.1, Or.inr ?_⟩]
      · exact h
      · have := rawPartialLitMin_iff.mp he.2
        rwa [← hx] at this

theorem go_mono_structural {syn : DsmlSyntax} {pos : ℕ} (hq : q <+: q')
    (h : trackStep q ⟨.structural syn, pos⟩ = .go dt' out) :
    trackStep q' ⟨.structural syn, pos⟩ = .go dt' out := by
  have hdrop := prefix_drop_drop hq pos
  simp only [trackStep] at h ⊢
  cases hr : q.drop pos with
  | nil => rw [hr] at h; cases h
  | cons c rest =>
    rw [hr] at h hdrop
    obtain ⟨x, hx⟩ := hdrop
    rw [← hx, List.cons_append]
    dsimp only at h ⊢
    have hdrop : c :: rest <+: c :: (rest ++ x) := ⟨x, rfl⟩
    have hap := syn.apart
    simp only [List.pairwise_cons, List.mem_cons, List.not_mem_nil, or_false, forall_eq_or_imp,
      forall_eq, IsEmpty.forall_iff, implies_true, List.Pairwise.nil, and_true] at hap
    obtain ⟨⟨h1, h2, h3⟩, ⟨h4, h5⟩, h6⟩ := hap
    split_ifs at h with hws htools hinvoke hstart hparam
    · rw [if_pos hws]
      exact h
    · have hin := hinvoke.trans hdrop
      rw [if_neg hws, if_neg (not_prefix_of_apart h1 hin), if_pos hin]
      exact h
    · have hin := hstart.trans hdrop
      rw [if_neg hws, if_neg (not_prefix_of_apart h2 hin),
        if_neg (not_prefix_of_apart h4 hin), if_pos hin]
      cases hf : find [62] (c :: rest) with
      | none => rw [hf] at h; cases h
      | some i =>
        rw [hf] at h
        rw [find_mono hdrop hf]
        exact h
    · have hin := hparam.trans hdrop
      rw [if_neg hws, if_neg (not_prefix_of_apart h3 hin),
        if_neg (not_prefix_of_apart h5 hin), if_neg (not_prefix_of_apart h6 hin),
        if_pos hin]
      cases hf : find [62] (c :: rest) with
      | none => rw [hf] at h; cases h
      | some i =>
        rw [hf] at h
        have hi := find_lt_length hf
        have htake : (c :: (rest ++ x)).take (i + 1) = (c :: rest).take (i + 1) := by
          rw [← List.cons_append, List.take_append_of_le_length (by omega)]
        rw [find_mono hdrop hf]
        dsimp only at h ⊢
        rw [htake]
        exact h

/-- A step taken on the shorter text is taken on the longer one. -/
theorem go_mono (hq : q <+: q') {t r : Stop TrackPoint Empty DsmlDecodeState}
    (hcut : CutOk r.state q') (hfresh : Fresh dt) (h : trackStep q dt = .go dt' out)
    (ht : trackMachine.Runs q dt' t) (htr : t.state = r.state) :
    trackStep q' dt = .go dt' out := by
  obtain ⟨mode, pos⟩ := dt
  cases mode with
  | done => cases h
  | search =>
    obtain rfl : pos = 0 := hfresh rfl
    simp only [trackStep] at h ⊢
    rw [dsmlFindToolStartFrom_eq (by simp)] at h ⊢
    cases hf : dsmlFindToolStart q with
    | none => rw [hf] at h; cases h
    | some x =>
      rw [hf] at h
      rw [dsmlFindToolStart_mono hf hq]
      exact h
  | stringBody syn => exact go_mono_stringBody hq hcut h ht htr
  | jsonParam syn inString escaped => exact go_mono_jsonParam hq hcut h ht htr
  | structural syn => exact go_mono_structural hq h

/-- Where a run waits it has not moved, but for a search that holds back and a block's end. -/
theorem trackStep_wait {w : TrackPoint} {b : DsmlDecodeState} (h : trackStep q dt = .wait w b) :
    w = dt ∨ (dt.mode = .search ∧ dsmlFindToolStartFrom q dt.pos = none ∧
        w = ⟨.search, q.length - dsmlMaxToolStartLen⟩) ∨
      (w.mode = .done ∧ ∀ q', q <+: q' → trackStep q' dt = .wait w .outside) := by
  obtain ⟨mode, pos⟩ := dt
  cases mode with
  | done =>
    cases h
    exact Or.inl rfl
  | search =>
    simp only [trackStep] at h
    cases hf : dsmlFindToolStartFrom q pos with
    | none =>
      rw [hf] at h
      cases h
      exact Or.inr (Or.inl ⟨rfl, rfl, rfl⟩)
    | some x => rw [hf] at h; cases h
  | stringBody syn =>
    simp only [trackStep] at h
    split_ifs at h <;> exact Or.inl (Progress.wait.inj h).1.symm
  | jsonParam syn inString escaped =>
    simp only [trackStep] at h
    cases hr : q.drop pos with
    | nil =>
      rw [hr] at h
      exact Or.inl (Progress.wait.inj h).1.symm
    | cons c rest =>
      rw [hr] at h
      dsimp only at h
      split_ifs at h
      exact Or.inl (Progress.wait.inj h).1.symm
  | structural syn =>
    simp only [trackStep] at h
    cases hr : q.drop pos with
    | nil =>
      rw [hr] at h
      exact Or.inl (Progress.wait.inj h).1.symm
    | cons c rest =>
      rw [hr] at h
      dsimp only at h
      split_ifs at h with hws htools
      · obtain ⟨rfl, rfl⟩ := Progress.wait.inj h
        refine Or.inr (Or.inr ⟨rfl, fun q' hq => ?_⟩)
        have hdrop := prefix_drop_drop hq pos
        rw [hr] at hdrop
        obtain ⟨x, hx⟩ := hdrop
        have hin : syn.toolCallsEnd <+: c :: (rest ++ x) := htools.trans ⟨x, rfl⟩
        simp only [trackStep, ← hx, List.cons_append]
        rw [if_neg hws, if_pos hin]
      all_goals
        first
          | exact Or.inl (Progress.wait.inj h).1.symm
          | cases hf : find [62] (c :: rest) with
            | none =>
              rw [hf] at h
              exact Or.inl (Progress.wait.inj h).1.symm
            | some i =>
              rw [hf] at h
              dsimp only at h
              try split_ifs at h
              all_goals cases h

/-- A tracker that waits goes on like the state it waited in. -/
theorem wait_resume (hq : q <+: q') {w : TrackPoint} {b : DsmlDecodeState}
    {t : Stop TrackPoint Empty DsmlDecodeState} (hfresh : Fresh dt)
    (h : trackStep q dt = .wait w b) (ht : trackMachine.Runs q' w t) :
    trackMachine.Runs q' dt t := by
  rcases trackStep_wait h with rfl | ⟨hm, hnone, rfl⟩ | ⟨hm, hstep⟩
  · exact ht
  · obtain ⟨mode, pos⟩ := dt
    obtain rfl : mode = .search := hm
    obtain rfl : pos = 0 := hfresh rfl
    have hstep : trackStep q' ⟨.search, q.length - dsmlMaxToolStartLen⟩
        = trackStep q' ⟨.search, 0⟩ := by
      rw [dsmlFindToolStartFrom_eq (by simp)] at hnone
      simp only [trackStep]
      rw [dsmlFindToolStartFrom_resume hnone hq, dsmlFindToolStartFrom_eq (by simp)]
    cases ht with
    | wait hs => exact .wait (hstep.symm.trans hs)
    | go hs hr => exact .go (hstep.symm.trans hs) hr
  · obtain ⟨mode, pos⟩ := w
    obtain rfl : mode = .done := hm
    have := ht.unique
      (.wait (show trackStep q' ⟨.done, pos⟩ = .wait ⟨.done, pos⟩ .outside from rfl))
    rw [this]
    exact .wait (hstep q' hq)

/-- An update from where the run on a prefix stopped ends like a run over the whole text. -/
theorem resume_update {r r' : Stop TrackPoint Empty DsmlDecodeState} (hq : q <+: q')
    (hcut : CutOk r.state q') (h : trackMachine.Runs q ⟨.search, 0⟩ r)
    (h' : trackMachine.Runs q' r.state r') : trackMachine.Runs q' ⟨.search, 0⟩ r' := by
  have hres := h.resume Fresh (fun _ hs => fresh_step hs)
    (fun hi hs ht htr => go_mono hq hcut hi hs ht htr)
    (fun hi hs ht => wait_resume hq hi hs ht) (fun _ => rfl) h'
  obtain ⟨state, out, verdict⟩ := r'
  have hout : r.out ++ out = out :=
    (List.eq_nil_iff_forall_not_mem.mpr fun a => a.elim).trans
      (List.eq_nil_iff_forall_not_mem.mpr fun a => a.elim : out = []).symm
  rwa [hout] at hres

end Resume

end Ds4.Dsml
