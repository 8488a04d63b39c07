import Mathlib.Tactic.NormNum

/-! The appliance's session table: which slot holds whose KV state, and up to which position. -/
namespace Ds4.Appliance

/-- What a generation request's body says. The limits are those of `json_find_int` and
`json_find_uint_array`. -/
structure HttpBody where
  maxTokens : Option ℕ
  sessionKey : Option String
  promptKey : Option String
  promptTokens : List UInt32
  promptHash : Option UInt64
  maxTokens_le : ∀ n ∈ maxTokens, n ≤ 1000000
  promptTokens_le : promptTokens.length ≤ 262144

structure HttpParsedRequest where
  body : HttpBody
  requestedTokens : ℕ := 0
  requestedTokens_lt : requestedTokens < 2 ^ 31 := by norm_num
  cacheKey : String := ""
  promptFingerprintPresent : Bool := false
  promptFingerprint : UInt64 := 0
  promptTokenIds : List UInt32 := []
  promptTokenIds_le : promptTokenIds.length ≤ 262144 := by simp
  cachePosition : UInt64 := 0
  cacheSlot : Option ℕ := none
  cacheHit : Bool := false
  cachePromptMatch : Bool := true
  cacheEvicted : Bool := false
  evictedKey : String := ""
  decodeInputToken : UInt32 := 0xffffffff
  generatedTokenIds : List UInt32 := []
  promptPrefillTokens : UInt64 := 0

theorem noMaxTokens_le : ∀ n ∈ (none : Option ℕ), n ≤ 1000000 := by simp

theorem noTokens_le : ([] : List UInt32).length ≤ 262144 := by simp

theorem noRequestedTokens_lt : 0 < 2 ^ 31 := by norm_num

structure SessionSlot where
  occupied : Bool := false
  kvValid : Bool := false
  hcValid : Bool := false
  promptFingerprintKnown : Bool := false
  key : String := ""
  promptFingerprint : UInt64 := 0
  promptTokenIds : List UInt32 := []
  generatedTokenIds : List UInt32 := []
  pos : UInt64 := 0
  promptTokens : UInt64 := 0
  generatedTokens : UInt64 := 0
  hits : UInt64 := 0
  misses : UInt64 := 0
  lastUsed : UInt64 := 0
  lastSelectedToken : UInt32 := 0xffffffff
  mtpRawRows : UInt32 := 0
  deriving DecidableEq, Inhabited

/-- `slot = none` where the source has `-1`. -/
structure SessionAssignment where
  slot : Option ℕ := none
  hit : Bool := false
  promptMatch : Bool := true
  evicted : Bool := false
  evictedKey : String := ""
  posIn : UInt64 := 0
  deriving DecidableEq

structure SessionTable where
  slots : List SessionSlot := []
  clock : UInt64 := 0
  hits : UInt64 := 0
  misses : UInt64 := 0
  evictions : UInt64 := 0
  deriving DecidableEq

def slotPromptMatches (slot : SessionSlot) (promptPresent : Bool) (fingerprint : UInt64) : Bool :=
  !promptPresent || (slot.promptFingerprintKnown && slot.promptFingerprint == fingerprint)

namespace SessionSlot

/-- The slot of a session that goes on where it stands. -/
def touch (slot : SessionSlot) (clock : UInt64) : SessionSlot :=
  { slot with lastUsed := clock, hits := slot.hits + 1 }

/-- The slot of a known session whose content cannot be used. -/
def restart (slot : SessionSlot) (req : HttpParsedRequest) (basePos clock : UInt64) :
    SessionSlot :=
  { slot with
    lastUsed := clock
    misses := slot.misses + 1
    kvValid := false
    hcValid := false
    pos := basePos
    promptFingerprintKnown := req.promptFingerprintPresent || slot.promptFingerprintKnown
    promptFingerprint :=
      if req.promptFingerprintPresent then req.promptFingerprint else slot.promptFingerprint
    promptTokenIds := req.promptTokenIds
    generatedTokenIds := []
    promptTokens := 0
    generatedTokens := 0
    lastSelectedToken := 0xffffffff
    mtpRawRows := 0 }

/-- The slot given to a new session. -/
def claim (req : HttpParsedRequest) (basePos clock : UInt64) : SessionSlot where
  occupied := true
  promptFingerprintKnown := req.promptFingerprintPresent
  key := req.cacheKey
  promptFingerprint := if req.promptFingerprintPresent then req.promptFingerprint else 0
  promptTokenIds := req.promptTokenIds
  pos := basePos
  misses := 1
  lastUsed := clock

/-- The slot behind a run that went through. -/
def commit (slot : SessionSlot) (pos promptTokens generatedTokens clock : UInt64)
    (selectedTokens : List UInt32) : SessionSlot :=
  let selected := selectedTokens.filter (· != 0xffffffff)
  { slot with
    kvValid := true
    hcValid := true
    pos := pos
    promptTokens := slot.promptTokens + promptTokens
    generatedTokens := slot.generatedTokens + generatedTokens
    generatedTokenIds := slot.generatedTokenIds ++ selected
    lastSelectedToken := selected.getLastD slot.lastSelectedToken
    lastUsed := clock }

end SessionSlot

namespace SessionTable

def init (n : ℕ) : SessionTable := { slots := List.replicate n {} }

def find (t : SessionTable) (key : String) : Option ℕ :=
  t.slots.findIdx? fun slot => slot.occupied && slot.key == key

def slot (t : SessionTable) (i : ℕ) : SessionSlot := t.slots.getD i {}

def previewHit (t : SessionTable) (key : String) (promptPresent : Bool) (fingerprint : UInt64) :
    Option UInt64 :=
  match t.find key with
  | none => none
  | some i =>
      if (t.slot i).kvValid && (t.slot i).hcValid &&
          slotPromptMatches (t.slot i) promptPresent fingerprint then some (t.slot i).pos
      else none

def previewPosition (t : SessionTable) (key : String) (promptPresent : Bool)
    (fingerprint basePos : UInt64) : UInt64 :=
  (t.previewHit key promptPresent fingerprint).getD basePos

/-- The unprotected slot that was used least recently. -/
def leastRecent (slots : List SessionSlot) (protectedSlots : List Bool) : Option ℕ :=
  (slots.zipIdx.foldl (fun best s =>
    if protectedSlots.getD s.2 false then best
    else if s.1.lastUsed < best.1 then (s.1.lastUsed, some s.2)
    else best) ((0xffffffffffffffff : UInt64), none)).2

def assign (t : SessionTable) (req : HttpParsedRequest) (basePos : UInt64)
    (protectedSlots : List Bool) : SessionAssignment × SessionTable :=
  let clock := t.clock + 1
  match t.find req.cacheKey with
  | some i =>
      let slot := t.slot i
      let promptMatch :=
        slotPromptMatches slot req.promptFingerprintPresent req.promptFingerprint
      if slot.kvValid && slot.hcValid && promptMatch then
        ({ slot := some i, hit := true, promptMatch, posIn := slot.pos },
          { t with clock, hits := t.hits + 1, slots := t.slots.set i (slot.touch clock) })
      else
        ({ slot := some i, promptMatch, posIn := basePos },
          { t with clock, misses := t.misses + 1,
                   slots := t.slots.set i (slot.restart req basePos clock) })
  | none =>
      match t.slots.findIdx? (fun slot => !slot.occupied) with
      | some i =>
          ({ slot := some i, posIn := basePos },
            { t with clock, misses := t.misses + 1,
                     slots := t.slots.set i (.claim req basePos clock) })
      | none =>
          match leastRecent t.slots protectedSlots with
          | none => ({}, { t with clock })
          | some i =>
              ({ slot := some i, evicted := true, evictedKey := (t.slot i).key, posIn := basePos },
                { t with clock, misses := t.misses + 1, evictions := t.evictions + 1,
                         slots := t.slots.set i (.claim req basePos clock) })

def commit (t : SessionTable) (a : SessionAssignment)
    (promptTokens generatedTokens positionAdvance : UInt64) (selectedTokens : List UInt32) :
    SessionTable :=
  match a.slot with
  | none => t
  | some i =>
      if i < t.slots.length then
        { t with
          clock := t.clock + 1
          slots := t.slots.set i ((t.slot i).commit (a.posIn + positionAdvance) promptTokens
            generatedTokens (t.clock + 1) selectedTokens) }
      else t

end SessionTable

structure ContextAdmission where
  ok : Bool
  cacheHit : Bool
  startPosition : UInt64
  promptPrefillSteps : UInt64
  requestedDecodeSteps : UInt64
  finalPosition : UInt64
  ctx : UInt64

def contextAdmission (sessions : SessionTable) (req : HttpParsedRequest)
    (basePosition ctx : UInt64) : ContextAdmission :=
  let hit := sessions.previewHit req.cacheKey req.promptFingerprintPresent req.promptFingerprint
  let start := hit.getD basePosition
  let prefill : UInt64 :=
    if !hit.isSome && 1 < req.promptTokenIds.length then
      UInt64.ofNat req.promptTokenIds.length - 1
    else 0
  let steps := UInt64.ofNat req.requestedTokens
  { ok := start + prefill + steps ≤ ctx
    cacheHit := hit.isSome
    startPosition := start
    promptPrefillSteps := prefill
    requestedDecodeSteps := steps
    finalPosition := start + prefill + steps
    ctx }

section Lookup
variable {t : SessionTable} {key : String} {i : ℕ}

theorem find_some (h : t.find key = some i) :
    i < t.slots.length ∧ (t.slot i).occupied = true ∧ (t.slot i).key = key := by
  obtain ⟨hlt, hp, -⟩ := List.findIdx?_eq_some_iff_getElem.mp h
  simp only [Bool.and_eq_true, beq_iff_eq] at hp
  simpa [SessionTable.slot, hlt] using hp

theorem find_none (h : t.find key = none) (hi : i < t.slots.length)
    (hocc : (t.slot i).occupied = true) : (t.slot i).key ≠ key := by
  intro hk
  have hall := List.findIdx?_eq_none_iff.mp h (t.slots[i]) (List.getElem_mem hi)
  simp [SessionTable.slot, hi] at hocc hk
  simp [hocc, hk] at hall

theorem leastRecent_some {slots : List SessionSlot} {protectedSlots : List Bool}
    (h : SessionTable.leastRecent slots protectedSlots = some i) :
    i < slots.length ∧ protectedSlots.getD i false = false := by
  unfold SessionTable.leastRecent at h
  have key : ∀ (l : List (SessionSlot × ℕ)) (b : UInt64 × Option ℕ),
      (∀ j, b.2 = some j → j < slots.length ∧ protectedSlots.getD j false = false) →
      (∀ s ∈ l, s.2 < slots.length) →
      ∀ j, (l.foldl (fun best s =>
        if protectedSlots.getD s.2 false then best
        else if s.1.lastUsed < best.1 then (s.1.lastUsed, some s.2)
        else best) b).2 = some j → j < slots.length ∧ protectedSlots.getD j false = false := by
    intro l
    induction l with
    | nil => exact fun b hb _ => hb
    | cons s l ih =>
      intro b hb hl
      refine ih _ ?_ fun s' hs' => hl s' (List.mem_cons_of_mem _ hs')
      intro j hj
      dsimp only at hj
      split_ifs at hj with hprot hlt
      · exact hb j hj
      · obtain rfl := Option.some.inj hj
        exact ⟨hl s List.mem_cons_self, by simpa using hprot⟩
      · exact hb j hj
  refine key _ _ (fun j hj => by cases hj) (fun s hs => ?_) i h
  have := List.mem_zipIdx hs
  omega

end Lookup

section Assign
variable {t : SessionTable} {req : HttpParsedRequest} {basePos : UInt64}
  {protectedSlots : List Bool}

/-- What an assignment does: it refuses, goes on with the session's slot, starts that slot
anew, or gives a free or the least recently used unprotected slot to the session. -/
inductive Assigned (t : SessionTable) (req : HttpParsedRequest) (basePos : UInt64)
    (protectedSlots : List Bool) : SessionAssignment → SessionTable → Prop
  | refuse {t'} (hfind : t.find req.cacheKey = none) (hslots : t'.slots = t.slots) :
      Assigned t req basePos protectedSlots {} t'
  | hit {i a t'} (hfind : t.find req.cacheKey = some i)
      (hvalid : (t.slot i).kvValid = true ∧ (t.slot i).hcValid = true)
      (hmatch : slotPromptMatches (t.slot i) req.promptFingerprintPresent
        req.promptFingerprint = true)
      (ha : a.slot = some i ∧ a.hit = true ∧ a.posIn = (t.slot i).pos)
      (hslots : t'.slots = t.slots.set i ((t.slot i).touch (t.clock + 1))) :
      Assigned t req basePos protectedSlots a t'
  | restart {i a t'} (hfind : t.find req.cacheKey = some i)
      (hmiss : ¬ (((t.slot i).kvValid = true ∧ (t.slot i).hcValid = true) ∧
        slotPromptMatches (t.slot i) req.promptFingerprintPresent req.promptFingerprint = true))
      (ha : a.slot = some i ∧ a.hit = false ∧ a.posIn = basePos)
      (hslots : t'.slots = t.slots.set i ((t.slot i).restart req basePos (t.clock + 1))) :
      Assigned t req basePos protectedSlots a t'
  | claim {i a t'} (hfind : t.find req.cacheKey = none) (hi : i < t.slots.length)
      (hfree : (t.slot i).occupied = false ∨ protectedSlots.getD i false = false)
      (ha : a.slot = some i ∧ a.hit = false ∧ a.posIn = basePos)
      (hslots : t'.slots = t.slots.set i (.claim req basePos (t.clock + 1))) :
      Assigned t req basePos protectedSlots a t'

theorem assigned (t : SessionTable) (req : HttpParsedRequest) (basePos : UInt64)
    (protectedSlots : List Bool) : Assigned t req basePos protectedSlots
      (t.assign req basePos protectedSlots).1 (t.assign req basePos protectedSlots).2 := by
  unfold SessionTable.assign
  cases hfind : t.find req.cacheKey with
  | some i =>
    dsimp only
    split_ifs with hhit
    · simp only [Bool.and_eq_true] at hhit
      exact .hit hfind hhit.1 hhit.2 ⟨rfl, rfl, rfl⟩ rfl
    · simp only [Bool.and_eq_true] at hhit
      exact .restart hfind hhit ⟨rfl, rfl, rfl⟩ rfl
  | none =>
    cases hfree : t.slots.findIdx? (fun slot => !slot.occupied) with
    | some i =>
      obtain ⟨hi, hocc, -⟩ := List.findIdx?_eq_some_iff_getElem.mp hfree
      refine .claim hfind hi (Or.inl ?_) ⟨rfl, rfl, rfl⟩ rfl
      simpa [SessionTable.slot, hi] using hocc
    | none =>
      cases hlru : SessionTable.leastRecent t.slots protectedSlots with
      | none => exact .refuse hfind rfl
      | some i =>
        obtain ⟨hi, hprot⟩ := leastRecent_some hlru
        exact .claim hfind hi (Or.inr hprot) ⟨rfl, rfl, rfl⟩ rfl

theorem slot_of_set {t t' : SessionTable} {i : ℕ} {s : SessionSlot} (hi : i < t.slots.length)
    (h : t'.slots = t.slots.set i s) (j : ℕ) : t'.slot j = if j = i then s else t.slot j := by
  unfold SessionTable.slot
  rw [h]
  split_ifs with hj
  · subst hj
    simp [hi]
  · simp [List.getD_eq_getElem?_getD, Ne.symm hj]

variable {a : SessionAssignment} {t' : SessionTable}

theorem Assigned.slot_lt (h : Assigned t req basePos protectedSlots a t') {i : ℕ}
    (hi : a.slot = some i) : i < t.slots.length := by
  cases h with
  | refuse => cases hi
  | hit hfind _ _ ha =>
    obtain rfl := Option.some.inj (ha.1.symm.trans hi)
    exact (find_some hfind).1
  | restart hfind _ ha =>
    obtain rfl := Option.some.inj (ha.1.symm.trans hi)
    exact (find_some hfind).1
  | claim _ hlt _ ha =>
    obtain rfl := Option.some.inj (ha.1.symm.trans hi)
    exact hlt

theorem Assigned.refused (h : Assigned t req basePos protectedSlots a t')
    (hslot : a.slot = none) : t'.slots = t.slots := by
  cases h with
  | refuse _ hslots => exact hslots
  | hit _ _ _ ha => simp [ha.1] at hslot
  | restart _ _ ha => simp [ha.1] at hslot
  | claim _ _ _ ha => simp [ha.1] at hslot

theorem Assigned.length_eq (h : Assigned t req basePos protectedSlots a t') :
    t'.slots.length = t.slots.length := by
  cases h with
  | refuse _ hslots => rw [hslots]
  | hit _ _ _ _ hslots => rw [hslots, List.length_set]
  | restart _ _ _ hslots => rw [hslots, List.length_set]
  | claim _ _ _ _ hslots => rw [hslots, List.length_set]

/-- The slot behind an assignment is the request's, and no other slot has changed. -/
theorem Assigned.slots_eq (h : Assigned t req basePos protectedSlots a t') {i : ℕ}
    (hi : a.slot = some i) : ∃ slot : SessionSlot, t'.slots = t.slots.set i slot ∧
      slot.occupied = true ∧ slot.key = req.cacheKey ∧ slot.pos = a.posIn := by
  cases h with
  | refuse => cases hi
  | hit hfind _ _ ha hslots =>
    obtain rfl := Option.some.inj (ha.1.symm.trans hi)
    obtain ⟨-, hocc, hkey⟩ := find_some hfind
    exact ⟨_, hslots, hocc, hkey, ha.2.2.symm⟩
  | restart hfind _ ha hslots =>
    obtain rfl := Option.some.inj (ha.1.symm.trans hi)
    obtain ⟨-, hocc, hkey⟩ := find_some hfind
    exact ⟨_, hslots, hocc, hkey, ha.2.2.symm⟩
  | claim _ _ _ ha hslots =>
    obtain rfl := Option.some.inj (ha.1.symm.trans hi)
    exact ⟨_, hslots, rfl, rfl, ha.2.2.symm⟩

/-- No two sessions have one key. -/
def OneSlotPerKey (t : SessionTable) : Prop :=
  ∀ i j, (t.slot i).occupied = true → (t.slot j).occupied = true →
    (t.slot i).key = (t.slot j).key → i = j

theorem find_of_occupied {key : String} {i : ℕ} (hocc : (t.slot i).occupied = true)
    (hkey : (t.slot i).key = key) : t.find key ≠ none := by
  intro hnone
  by_cases hi : i < t.slots.length
  · exact find_none hnone hi hocc hkey
  · simp [SessionTable.slot, List.getD_eq_getElem?_getD, hi] at hocc

/-- A key is given to a slot only where no other slot has it. -/
theorem OneSlotPerKey.assign (hkeys : OneSlotPerKey t)
    (h : Assigned t req basePos protectedSlots a t') : OneSlotPerKey t' := by
  cases hslot : a.slot with
  | none =>
    have hsame : t'.slot = t.slot := by
      funext i
      simp [SessionTable.slot, h.refused hslot]
    exact fun i j => hsame ▸ hkeys i j
  | some i =>
    have hlt := h.slot_lt hslot
    obtain ⟨slot, hslots, hocc, hkey, -⟩ := h.slots_eq hslot
    have hown : ∀ j, j ≠ i → (t.slot j).occupied = true → (t.slot j).key ≠ req.cacheKey := by
      intro j hj hoccj hkeyj
      have hknown : ∀ k, t.find req.cacheKey = some k → k = i → False := by
        intro k hk hki
        obtain ⟨-, hocck, hkeyk⟩ := find_some hk
        exact hj ((hkeys j k hoccj hocck (hkeyj.trans hkeyk.symm)).trans hki)
      have hnew := find_of_occupied hoccj hkeyj
      cases h with
      | refuse hnone => exact hnew hnone
      | claim hnone => exact hnew hnone
      | hit hfind _ _ ha => exact hknown _ hfind (Option.some.inj (ha.1.symm.trans hslot))
      | restart hfind _ ha => exact hknown _ hfind (Option.some.inj (ha.1.symm.trans hslot))
    intro j k hoccj hocck hjk
    rw [slot_of_set hlt hslots] at hoccj hjk
    rw [slot_of_set hlt hslots] at hocck hjk
    split_ifs at hoccj hocck hjk with hj hk hk
    · rw [hj, hk]
    · exact absurd (hjk.symm.trans hkey) (hown k hk hocck)
    · exact absurd (hjk.trans hkey) (hown j hj hoccj)
    · exact hkeys j k hoccj hocck hjk

/-- The position a request is given is the one that its session stands at. -/
theorem Assigned.posIn_eq (h : Assigned t req basePos protectedSlots a t') {i : ℕ}
    (hi : a.slot = some i) : a.posIn = t.previewPosition req.cacheKey
      req.promptFingerprintPresent req.promptFingerprint basePos := by
  cases h with
  | refuse => cases hi
  | hit hfind hvalid hmatch ha =>
    simp [SessionTable.previewPosition, SessionTable.previewHit, hfind, hvalid, hmatch, ha.2.2]
  | restart hfind hmiss ha =>
    simp only [SessionTable.previewPosition, SessionTable.previewHit, hfind]
    rw [if_neg (by simpa only [Bool.and_eq_true] using hmiss), ha.2.2, Option.getD_none]
  | claim hfind _ _ ha =>
    simp [SessionTable.previewPosition, SessionTable.previewHit, hfind, ha.2.2]

end Assign

section Batch
variable {t t' : SessionTable} {req : HttpParsedRequest} {basePos : UInt64}
  {a : SessionAssignment}

/-- A request of a batch with the slot it was given. -/
abbrev Held := HttpParsedRequest × SessionAssignment

def protectedSlots (n : ℕ) (held : List Held) : List Bool :=
  (List.range n).map fun i => held.any fun e => e.2.slot == some i

theorem protectedSlots_eq {n i : ℕ} {held : List Held} (hi : i < n) :
    (protectedSlots n held).getD i false = false ↔ ∀ e ∈ held, e.2.slot ≠ some i := by
  simp [protectedSlots, List.getD_eq_getElem?_getD, hi]

/-- The requests of a batch hold different slots under their own keys, at the positions they
were given. -/
structure BatchInv (t : SessionTable) (held : List Held) : Prop where
  distinct : held.Pairwise fun e e' => e.2.slot ≠ e'.2.slot
  holds : ∀ e ∈ held, ∃ i < t.slots.length, e.2.slot = some i ∧
    (t.slot i).occupied = true ∧ (t.slot i).key = e.1.cacheKey ∧ (t.slot i).pos = e.2.posIn

variable {held : List Held}

theorem BatchInv.nil (t : SessionTable) : BatchInv t [] := ⟨List.Pairwise.nil, by simp⟩

/-- A slot under a key that the batch does not hold is not one of the batch. -/
theorem BatchInv.not_held (h : BatchInv t held) {key : String} {i : ℕ}
    (hkeys : ∀ e ∈ held, e.1.cacheKey ≠ key) (hkey : (t.slot i).key = key) :
    ∀ e ∈ held, e.2.slot ≠ some i := by
  intro e he hslot
  obtain ⟨j, -, hj, -, hkey', -⟩ := h.holds e he
  obtain rfl : j = i := Option.some.inj (hj.symm.trans hslot)
  exact hkeys e he (hkey'.symm.trans hkey)

/-- A slot given to a request with a key of its own is not one of the batch. -/
theorem BatchInv.assign_new (h : BatchInv t held)
    (hassign : Assigned t req basePos (protectedSlots t.slots.length held) a t')
    (hkeys : ∀ e ∈ held, e.1.cacheKey ≠ req.cacheKey) {i : ℕ} (hi : a.slot = some i) :
    ∀ e ∈ held, e.2.slot ≠ some i := by
  cases hassign with
  | refuse => cases hi
  | hit hfind _ _ ha =>
    obtain rfl := Option.some.inj (ha.1.symm.trans hi)
    exact h.not_held hkeys (find_some hfind).2.2
  | restart hfind _ ha =>
    obtain rfl := Option.some.inj (ha.1.symm.trans hi)
    exact h.not_held hkeys (find_some hfind).2.2
  | claim _ hlt hfree ha =>
    obtain rfl := Option.some.inj (ha.1.symm.trans hi)
    rcases hfree with hfree | hprot
    · intro e he hei
      obtain ⟨j, -, hj, hocc, -⟩ := h.holds e he
      obtain rfl := Option.some.inj (hj.symm.trans hei)
      simp [hocc] at hfree
    · exact (protectedSlots_eq hlt).mp hprot

/-- One more request in the batch leaves the slots of the others alone. -/
theorem BatchInv.extend (h : BatchInv t held)
    (hassign : Assigned t req basePos (protectedSlots t.slots.length held) a t')
    (hkeys : ∀ e ∈ held, e.1.cacheKey ≠ req.cacheKey) {i : ℕ} (hi : a.slot = some i)
    {req' : HttpParsedRequest} (hkey : req'.cacheKey = req.cacheKey) :
    BatchInv t' (held ++ [(req', a)]) := by
  have hlt := hassign.slot_lt hi
  have hnew := h.assign_new hassign hkeys hi
  obtain ⟨slot, hslots, hocc, hskey, hpos⟩ := hassign.slots_eq hi
  have hlen : t'.slots.length = t.slots.length := by rw [hslots, List.length_set]
  refine ⟨List.pairwise_append.mpr ⟨h.distinct, List.pairwise_singleton _ _, ?_⟩, ?_⟩
  · intro e he e' he'
    rw [List.mem_singleton.mp he', hi]
    exact hnew e he
  · intro e he
    rcases List.mem_append.mp he with hm | hm
    · obtain ⟨j, hj, hej, hold⟩ := h.holds e hm
      have hji : j ≠ i := fun hji => hnew e hm (hji ▸ hej)
      refine ⟨j, hlen ▸ hj, hej, ?_⟩
      rwa [slot_of_set hlt hslots, if_neg hji]
    · obtain rfl := List.mem_singleton.mp hm
      refine ⟨i, hlen ▸ hlt, hi, ?_⟩
      rw [slot_of_set hlt hslots, if_pos rfl]
      exact ⟨hocc, hskey.trans hkey.symm, hpos⟩

/-- The batch's next request is settled: its slot is free to change. -/
theorem BatchInv.rest {e : Held} {rest : List Held} (h : BatchInv t (e :: rest)) {i : ℕ}
    {slot : SessionSlot} (hei : e.2.slot = some i) (hslots : t'.slots = t.slots.set i slot) :
    BatchInv t' rest := by
  have hdistinct := List.pairwise_cons.mp h.distinct
  obtain ⟨k, hk, hek, -⟩ := h.holds e List.mem_cons_self
  obtain rfl : k = i := Option.some.inj (hek.symm.trans hei)
  refine ⟨hdistinct.2, fun e' he' => ?_⟩
  obtain ⟨j, hj, hej, hold⟩ := h.holds e' (List.mem_cons_of_mem _ he')
  have hji : j ≠ k := by
    rintro rfl
    exact hdistinct.1 e' he' (hei.trans hej.symm)
  refine ⟨j, by rwa [hslots, List.length_set], hej, ?_⟩
  rwa [slot_of_set hk hslots, if_neg hji]

end Batch

end Ds4.Appliance
