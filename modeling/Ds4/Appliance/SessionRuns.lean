import Ds4.Appliance.SessionTable

/-! Runs of the session table beside a record of which prompts built each slot's KV state. A
cache hit is sound unless a request without a prompt restarts a slot whose old fingerprint is
still known. -/
namespace Ds4.Appliance

/-- One run's tokens in a slot: the fingerprint of the prompt, if there was one, and whether
the run was committed. -/
structure Segment where
  prompt : Option UInt64
  committed : Bool
  deriving DecidableEq

def HttpParsedRequest.prompt (req : HttpParsedRequest) : Option UInt64 :=
  if req.promptFingerprintPresent then some req.promptFingerprint else none

/-- The table, what the slots hold, and the batch that has been assigned so far. -/
structure SessionState where
  table : SessionTable
  kv : ℕ → List Segment
  running : List Held

namespace SessionState

def protectedSlots (s : SessionState) : List Bool :=
  Appliance.protectedSlots s.table.slots.length s.running

/-- A batch of which one request gets no slot is dropped. -/
def assign (s : SessionState) (req : HttpParsedRequest) (basePos : UInt64) : SessionState :=
  let r := s.table.assign req basePos s.protectedSlots
  { s with table := r.2, running := if r.1.slot.isSome then s.running ++ [(req, r.1)] else [] }

/-- The content of a slot behind a run: a hit goes on, everything else starts over. -/
def grow (content : List Segment) (e : Held) (committed : Bool) :
    List Segment :=
  (if e.2.hit then content else []) ++ [⟨e.1.prompt, committed⟩]

/-- A failed decode of the batch that has written to the slots in `wrote`. -/
def fail (s : SessionState) (wrote : ℕ → Bool) : SessionState :=
  { s with
    kv := fun i =>
      match s.running.find? (fun e => e.2.slot == some i) with
      | some e => if wrote i then grow (s.kv i) e false else s.kv i
      | none => s.kv i
    running := [] }

/-- The commit of the batch's next request. -/
def commit (s : SessionState) (promptTokens generatedTokens positionAdvance : UInt64)
    (selectedTokens : List UInt32) : SessionState :=
  match s.running with
  | [] => s
  | e :: rest =>
      { table := s.table.commit e.2 promptTokens generatedTokens positionAdvance selectedTokens
        kv := fun i => if e.2.slot = some i then grow (s.kv i) e true else s.kv i
        running := rest }

end SessionState

/-- The states reached by assignments, commits and failed decodes; the keys of one batch are
distinct, and `Ok` is required of the table and the request at each assignment. -/
inductive SessionRun (n : ℕ) (basePos : UInt64) (Ok : SessionTable → HttpParsedRequest → Prop) :
    SessionState → Prop
  | init : SessionRun n basePos Ok ⟨.init n, fun _ => [], []⟩
  | assign {s req} : SessionRun n basePos Ok s → Ok s.table req →
      (∀ e ∈ s.running, e.1.cacheKey ≠ req.cacheKey) →
        SessionRun n basePos Ok (s.assign req basePos)
  | fail {s} (wrote : ℕ → Bool) : SessionRun n basePos Ok s → SessionRun n basePos Ok (s.fail wrote)
  | commit {s} (promptTokens generatedTokens positionAdvance : UInt64)
      (selectedTokens : List UInt32) : SessionRun n basePos Ok s →
      SessionRun n basePos Ok
        (s.commit promptTokens generatedTokens positionAdvance selectedTokens)

/-- A committed run on the prompt `fp` built the content and no other prompt was added. -/
def Built (fp : UInt64) (content : List Segment) : Prop :=
  ∃ rest, content = ⟨some fp, true⟩ :: rest ∧ ∀ g ∈ rest, g.prompt = none ∨ g.prompt = some fp

/-- An assignment that would hit finds the content of the request's own prompt. -/
def HitSound (basePos : UInt64) (s : SessionState) : Prop :=
  ∀ req : HttpParsedRequest, (∀ e ∈ s.running, e.1.cacheKey ≠ req.cacheKey) →
    ∀ fp ∈ req.prompt, ∀ i, (s.table.assign req basePos s.protectedSlots).1.slot = some i →
      (s.table.assign req basePos s.protectedSlots).1.hit = true → Built fp (s.kv i)

/-- No request without a prompt restarts a slot whose fingerprint is known. -/
def NoStalePrompt (t : SessionTable) (req : HttpParsedRequest) : Prop :=
  req.promptFingerprintPresent = false → ∀ i, t.find req.cacheKey = some i →
    ((t.slot i).kvValid = true ∧ (t.slot i).hcValid = true) ∨
      (t.slot i).promptFingerprintKnown = false

section Invariant

/-- A valid slot with a known fingerprint holds what that prompt built. -/
def SlotSound (slot : SessionSlot) (content : List Segment) : Prop :=
  slot.kvValid = true → slot.promptFingerprintKnown = true → Built slot.promptFingerprint content

/-- A slot with an assigned request: what a commit or a failure will find. -/
structure EntrySound (e : Held) (slot : SessionSlot)
    (content : List Segment) : Prop where
  hit : e.2.hit = true → slot.kvValid = true ∧ SlotSound slot content
  miss : e.2.hit = false → slot.kvValid = false
  prompt : slot.promptFingerprintKnown = true →
    e.1.prompt = some slot.promptFingerprint ∨ (e.2.hit = true ∧ e.1.prompt = none)

structure SessionInv (s : SessionState) : Prop where
  batch : BatchInv s.table s.running
  running : ∀ e ∈ s.running, ∀ i, e.2.slot = some i → EntrySound e (s.table.slot i) (s.kv i)
  settled : ∀ i, (∀ e ∈ s.running, e.2.slot ≠ some i) → SlotSound (s.table.slot i) (s.kv i)

theorem Built.snoc {fp : UInt64} {content : List Segment} {g : Segment} (h : Built fp content)
    (hg : g.prompt = none ∨ g.prompt = some fp) : Built fp (content ++ [g]) := by
  obtain ⟨rest, rfl, hrest⟩ := h
  refine ⟨rest ++ [g], rfl, fun g' hg' => ?_⟩
  rcases List.mem_append.mp hg' with hm | hm
  · exact hrest g' hm
  · rwa [List.mem_singleton.mp hm]

/-- A run that went through leaves a sound slot, whatever a hit or a miss had found. -/
theorem EntrySound.committed {e : Held} {slot : SessionSlot}
    {content : List Segment} (h : EntrySound e slot content)
    (pos promptTokens generatedTokens clock : UInt64) (selectedTokens : List UInt32) :
    SlotSound (slot.commit pos promptTokens generatedTokens clock selectedTokens)
      (SessionState.grow content e true) := by
  intro _ hknown
  have hprompt := h.prompt hknown
  unfold SessionState.grow
  cases hhit : e.2.hit with
  | true =>
    obtain ⟨hvalid, hsound⟩ := h.hit hhit
    refine (hsound hvalid hknown).snoc ?_
    exact hprompt.elim Or.inr fun hp => Or.inl hp.2
  | false =>
    have hp := hprompt.resolve_right fun hp => by simp [hhit] at hp
    exact ⟨[], by simp [hp]; rfl, by simp⟩

/-- A run that failed leaves a slot that is sound, since a miss had made it invalid. -/
theorem EntrySound.failed {e : Held} {slot : SessionSlot}
    {content : List Segment} (h : EntrySound e slot content) :
    SlotSound slot (SessionState.grow content e false) := by
  intro hvalid hknown
  cases hhit : e.2.hit with
  | false => simp [h.miss hhit] at hvalid
  | true =>
    have hprompt := h.prompt hknown
    simp only [SessionState.grow, hhit, ↓reduceIte]
    refine ((h.hit hhit).2 hvalid hknown).snoc ?_
    exact hprompt.elim Or.inr fun hp => Or.inl hp.2

theorem SessionInv.init (n : ℕ) : SessionInv ⟨.init n, fun _ => [], []⟩ := by
  refine ⟨BatchInv.nil _, by simp, fun i _ hvalid => ?_⟩
  have : ((SessionTable.init n).slot i).kvValid = false := by
    simp only [SessionTable.slot, SessionTable.init, List.getD_eq_getElem?_getD,
      List.getElem?_replicate]
    split_ifs <;> rfl
  simp [this] at hvalid

/-- A slot holds sound content when its run is dropped as well: a miss has made it invalid. -/
theorem SessionInv.dropped {s : SessionState} (h : SessionInv s) (i : ℕ) :
    SlotSound (s.table.slot i) (s.kv i) := by
  by_cases hi : ∀ e ∈ s.running, e.2.slot ≠ some i
  · exact h.settled i hi
  · obtain ⟨e, he, hei⟩ : ∃ e ∈ s.running, e.2.slot = some i := by simpa using hi
    have hsound := h.running e he i hei
    cases hhit : e.2.hit with
    | true => exact (hsound.hit hhit).2
    | false => exact fun hvalid => by simp [hsound.miss hhit] at hvalid

/-- One more request in the batch. -/
theorem SessionInv.extend {s : SessionState} (h : SessionInv s) {req : HttpParsedRequest}
    {basePos : UInt64} {a : SessionAssignment} {t' : SessionTable} {slot : SessionSlot} {i : ℕ}
    (hassign : Assigned s.table req basePos s.protectedSlots a t')
    (hkeys : ∀ e ∈ s.running, e.1.cacheKey ≠ req.cacheKey) (ha : a.slot = some i)
    (hslots : t'.slots = s.table.slots.set i slot) (hentry : EntrySound (req, a) slot (s.kv i)) :
    SessionInv ⟨t', s.kv, s.running ++ [(req, a)]⟩ := by
  have hi := hassign.slot_lt ha
  have hnew := h.batch.assign_new hassign hkeys ha
  refine ⟨h.batch.extend hassign hkeys ha rfl, ?_, ?_⟩
  · intro e he j hej
    rcases List.mem_append.mp he with hm | hm
    · have hji : j ≠ i := fun hji => hnew e hm (hji ▸ hej)
      rw [slot_of_set hi hslots, if_neg hji]
      exact h.running e hm j hej
    · obtain rfl := List.mem_singleton.mp hm
      obtain rfl : j = i := Option.some.inj (hej.symm.trans ha)
      rwa [slot_of_set hi hslots, if_pos rfl]
  · intro j hj
    have hji : j ≠ i := by
      rintro rfl
      exact hj (req, a) (List.mem_append_right _ List.mem_cons_self) ha
    rw [slot_of_set hi hslots, if_neg hji]
    exact h.settled j fun e he => hj e (List.mem_append_left _ he)

theorem prompt_of_match {req : HttpParsedRequest} {slot : SessionSlot}
    (h : slotPromptMatches slot req.promptFingerprintPresent req.promptFingerprint = true) :
    req.prompt = none ∨
      (slot.promptFingerprintKnown = true ∧ req.prompt = some slot.promptFingerprint) := by
  unfold HttpParsedRequest.prompt
  cases hp : req.promptFingerprintPresent with
  | false => exact Or.inl rfl
  | true =>
    simp only [slotPromptMatches, hp, Bool.not_true, Bool.false_or, Bool.and_eq_true,
      beq_iff_eq] at h
    exact Or.inr ⟨h.1, by simp [h.2]⟩

theorem SessionInv.assign {s : SessionState} (h : SessionInv s) {req : HttpParsedRequest}
    (basePos : UInt64) (hok : NoStalePrompt s.table req)
    (hkeys : ∀ e ∈ s.running, e.1.cacheKey ≠ req.cacheKey) :
    SessionInv (s.assign req basePos) := by
  have hassigned := assigned s.table req basePos s.protectedSlots
  unfold SessionState.assign
  generalize s.table.assign req basePos s.protectedSlots = r at hassigned ⊢
  obtain ⟨a, t'⟩ := r
  dsimp only at hassigned ⊢
  have hextend := hassigned
  cases hassigned with
  | refuse hfind hslots =>
    refine ⟨BatchInv.nil _, by simp, fun i _ => ?_⟩
    have hslot : t'.slot i = s.table.slot i := by simp [SessionTable.slot, hslots]
    show SlotSound (t'.slot i) (s.kv i)
    rw [hslot]
    exact h.dropped i
  | @hit i _ _ hfind hvalid hmatch ha hslots =>
    rw [ha.1, Option.isSome_some, if_pos rfl]
    refine h.extend hextend hkeys ha.1 hslots ⟨fun _ => ⟨hvalid.1, h.dropped i⟩, ?_, ?_⟩
    · intro hmiss
      simp [ha.2.1] at hmiss
    · intro hknown
      rcases prompt_of_match hmatch with hp | hp
      · exact Or.inr ⟨ha.2.1, hp⟩
      · exact Or.inl hp.2
  | @restart i _ _ hfind hmiss ha hslots =>
    rw [ha.1, Option.isSome_some, if_pos rfl]
    refine h.extend hextend hkeys ha.1 hslots ⟨fun hhit => ?_, fun _ => rfl, ?_⟩
    · simp [ha.2.1] at hhit
    · intro hknown
      simp only [SessionSlot.restart] at hknown ⊢
      cases hp : req.promptFingerprintPresent with
      | true => exact Or.inl (by simp [HttpParsedRequest.prompt, hp])
      | false =>
        rw [hp, Bool.false_or] at hknown
        rcases hok hp i hfind with hvalid | hunknown
        · exact absurd ⟨hvalid, by simp [slotPromptMatches, hp]⟩ hmiss
        · simp [hknown] at hunknown
  | @claim i _ _ hfind hi hfree ha hslots =>
    rw [ha.1, Option.isSome_some, if_pos rfl]
    refine h.extend hextend hkeys ha.1 hslots ⟨fun hhit => ?_, fun _ => rfl, ?_⟩
    · simp [ha.2.1] at hhit
    · intro hknown
      have hp : req.promptFingerprintPresent = true := hknown
      exact Or.inl (by simp [HttpParsedRequest.prompt, SessionSlot.claim, hp])

theorem SessionInv.fail {s : SessionState} (h : SessionInv s) (wrote : ℕ → Bool) :
    SessionInv (s.fail wrote) := by
  refine ⟨BatchInv.nil _, by simp [SessionState.fail], fun i _ => ?_⟩
  simp only [SessionState.fail]
  cases hf : s.running.find? (fun e => e.2.slot == some i) with
  | none => exact h.dropped i
  | some e =>
    have hei : e.2.slot = some i := by simpa using List.find?_some hf
    dsimp only
    split_ifs with hwrote
    · exact (h.running e (List.mem_of_find?_eq_some hf) i hei).failed
    · exact h.dropped i

theorem SessionInv.commit {s : SessionState} (h : SessionInv s)
    (promptTokens generatedTokens positionAdvance : UInt64) (selectedTokens : List UInt32) :
    SessionInv (s.commit promptTokens generatedTokens positionAdvance selectedTokens) := by
  unfold SessionState.commit
  cases hrun : s.running with
  | nil => exact h
  | cons e rest =>
    have hmem : ∀ e' ∈ rest, e' ∈ s.running := fun e' he' => hrun ▸ List.mem_cons_of_mem _ he'
    obtain ⟨i, hi, hei, -⟩ := h.batch.holds e (hrun ▸ List.mem_cons_self)
    have hdistinct := h.batch.distinct
    rw [hrun, List.pairwise_cons] at hdistinct
    have hother : ∀ e' ∈ rest, ∀ j, e'.2.slot = some j → j ≠ i := by
      rintro e' he' j hej rfl
      exact hdistinct.1 e' he' (hei.trans hej.symm)
    have hslots : (s.table.commit e.2 promptTokens generatedTokens positionAdvance
        selectedTokens).slots = s.table.slots.set i ((s.table.slot i).commit
          (e.2.posIn + positionAdvance) promptTokens generatedTokens (s.table.clock + 1)
          selectedTokens) := by
      simp [SessionTable.commit, hei, hi]
    refine ⟨(hrun ▸ h.batch).rest hei hslots, ?_, ?_⟩
    · intro e' he' j hej
      have hji := hother e' he' j hej
      rw [slot_of_set hi hslots, if_neg hji]
      simpa [hei, Ne.symm hji] using h.running e' (hmem e' he') j hej
    · intro j hj
      by_cases hji : j = i
      · subst hji
        rw [slot_of_set hi hslots, if_pos rfl]
        have hsound := h.running e (hrun ▸ List.mem_cons_self) j hei
        simpa [hei] using hsound.committed _ _ _ _ _
      · rw [slot_of_set hi hslots, if_neg hji]
        simpa [hei, Ne.symm hji] using h.dropped j

/-- Every reached state is sound where no request without a prompt restarts a slot with a
known fingerprint. -/
theorem SessionRun.inv {n : ℕ} {basePos : UInt64} {s : SessionState}
    (h : SessionRun n basePos NoStalePrompt s) : SessionInv s := by
  induction h with
  | init => exact SessionInv.init n
  | assign _ hok hkeys ih => exact ih.assign basePos hok hkeys
  | fail wrote _ ih => exact ih.fail wrote
  | commit p g a l _ ih => exact ih.commit p g a l

end Invariant

/-- In a run in which no request without a prompt restarts a slot whose fingerprint is still
known, every hit finds what its own prompt built. -/
theorem hits_sound {n : ℕ} {basePos : UInt64} {s : SessionState}
    (h : SessionRun n basePos NoStalePrompt s) : HitSound basePos s := by
  intro req hkeys fp hfp i hslot hhit
  have hinv := h.inv
  have hassigned := assigned s.table req basePos s.protectedSlots
  generalize s.table.assign req basePos s.protectedSlots = r at hassigned hslot hhit
  obtain ⟨a, t'⟩ := r
  cases hassigned with
  | refuse => cases hhit
  | @hit j _ _ hfind hvalid hmatch ha hslots =>
    obtain rfl : j = i := Option.some.inj (ha.1.symm.trans hslot)
    rcases prompt_of_match hmatch with hp | ⟨hknown, hp⟩
    · rw [hp] at hfp
      cases hfp
    · obtain rfl : (s.table.slot j).promptFingerprint = fp := by
        rw [hp] at hfp
        exact Option.some.inj hfp
      exact hinv.dropped j hvalid.1 hknown
  | restart _ _ ha => exact absurd (ha.2.1.symm.trans hhit) Bool.false_ne_true
  | claim _ _ _ ha => exact absurd (ha.2.1.symm.trans hhit) Bool.false_ne_true

section Runs

/-- A request of one session, with the tokens of its prompt or without one. -/
def sessionRequest (fingerprint : Option UInt64) : HttpParsedRequest where
  body := ⟨none, some "s", none, [], none, noMaxTokens_le, noTokens_le⟩
  requestedTokens_lt := noRequestedTokens_lt
  promptTokenIds_le := noTokens_le
  cacheKey := "s"
  promptFingerprintPresent := fingerprint.isSome
  promptFingerprint := fingerprint.getD 0

/-- A first turn that is committed. -/
def firstTurn : SessionState :=
  (SessionState.assign ⟨.init 1, fun _ => [], []⟩ (sessionRequest (some 7)) 0).commit 1 1 1 [5]

theorem firstTurn_sound : HitSound 0 firstTurn := by
  refine hits_sound (n := 1) (.commit 1 1 1 [5] (.assign .init ?_ (by simp)))
  intro hp
  simp [sessionRequest] at hp

/-- A prompt whose decode fails, and a request of the same session without a prompt that then
goes through. -/
def staleTurns : SessionState :=
  ((((SessionState.assign ⟨.init 1, fun _ => [], []⟩ (sessionRequest (some 7)) 0).fail
    fun _ => true).assign (sessionRequest none) 0).commit 1 1 1 [5])

/-- The old fingerprint has survived the failure: the prompt hits what the request without a
prompt has built. -/
theorem staleTurns_unsound : ¬ ∀ n basePos s, SessionRun n basePos (fun _ _ => True) s →
    HitSound basePos s := by
  intro h
  have hrun : SessionRun 1 0 (fun _ _ => True) staleTurns :=
    .commit 1 1 1 [5]
      (.assign (.fail _ (.assign .init trivial (by simp))) trivial (by simp [SessionState.fail]))
  have hbuilt := h 1 0 staleTurns hrun (sessionRequest (some 7)) (by decide) 7 (by decide) 0
    (by decide) (by decide)
  obtain ⟨rest, hrest, -⟩ := hbuilt
  have hkv : staleTurns.kv 0 = [⟨none, true⟩] := by decide
  simp [hkv] at hrest

end Runs

end Ds4.Appliance
