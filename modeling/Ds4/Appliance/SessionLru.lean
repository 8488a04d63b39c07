import Ds4.Appliance.Batch
import Mathlib.Algebra.Order.Ring.Star
import Mathlib.Data.List.GetD

/-! The session table over whole runs, beside a record of when each slot was used last. Keys
stay distinct, a batch that fits gets its slots, and evictions follow the order of use until
the 64-bit clock wraps. -/
namespace Ds4.Appliance

/-- A table with the steps its clock has counted, the step of each slot's last use, and the
batch that is under way. -/
structure Clocked where
  table : SessionTable
  steps : ℕ
  usedAt : ℕ → ℕ
  held : List Held

namespace Clocked

def init (n : ℕ) : Clocked := ⟨.init n, 0, fun _ => 0, []⟩

def use (s : Clocked) (slot : Option ℕ) (i : ℕ) : ℕ :=
  if slot = some i then s.steps + 1 else s.usedAt i

/-- A batch of which one request gets no slot is dropped. -/
def assign (s : Clocked) (req : HttpParsedRequest) (basePos : UInt64) : Clocked :=
  let r := s.table.assign req basePos (protectedSlots s.table.slots.length s.held)
  { table := r.2
    steps := s.steps + 1
    usedAt := s.use r.1.slot
    held := if r.1.slot.isSome then s.held ++ [(req.assigned r.1, r.1)] else [] }

/-- The commit of the batch's next request. -/
def commit (s : Clocked) (promptTokens generatedTokens positionAdvance : UInt64)
    (selectedTokens mtpRawRows : List UInt32) : Clocked :=
  match s.held with
  | [] => s
  | e :: rest =>
      { table := (s.table.commit e.2 promptTokens generatedTokens positionAdvance
          selectedTokens).setMtpRawRows e.2.slot mtpRawRows
        steps := s.steps + 1
        usedAt := s.use e.2.slot
        held := rest }

/-- The end of a batch, also of one that failed. -/
def finish (s : Clocked) : Clocked := { s with held := [] }

end Clocked

/-- The states reached by assignments, commits and ends of batches; the keys of one batch are
distinct. Previews change nothing. -/
inductive TableRun (n : ℕ) (basePos : UInt64) : Clocked → Prop
  | init : TableRun n basePos (.init n)
  | assign {s} (req : HttpParsedRequest) : TableRun n basePos s →
      (∀ e ∈ s.held, e.1.cacheKey ≠ req.cacheKey) → TableRun n basePos (s.assign req basePos)
  | commit {s} (promptTokens generatedTokens positionAdvance : UInt64)
      (selectedTokens mtpRawRows : List UInt32) : TableRun n basePos s →
      TableRun n basePos
        (s.commit promptTokens generatedTokens positionAdvance selectedTokens mtpRawRows)
  | finish {s} : TableRun n basePos s → TableRun n basePos s.finish

/-- What is said of the table in a reached state. `Counted` is required of the number of steps
that have been counted when the batch, or the request, has got its slots. -/
structure SessionsSound (Counted : ℕ → Prop) (n : ℕ) (basePos : UInt64) (s : Clocked) :
    Prop where
  keys : OneSlotPerKey s.table
  batch : ∀ reqs : List HttpParsedRequest, (reqs.Pairwise fun r r' => r.cacheKey ≠ r'.cacheKey) →
    reqs.length ≤ n → Counted (s.steps + reqs.length) →
    ∃ t' held', assignBatch basePos reqs s.table [] = (t', some held') ∧ BatchInv t' held' ∧
      held'.map (·.1.cacheKey) = reqs.map (·.cacheKey)
  preview : ∀ (req : HttpParsedRequest) (prot : List Bool),
    (s.table.previewHit req.cacheKey req.promptFingerprintPresent req.promptFingerprint).isSome =
        (s.table.assign req basePos prot).1.hit ∧
      ((s.table.assign req basePos prot).1.slot.isSome →
        s.table.previewPosition req.cacheKey req.promptFingerprintPresent req.promptFingerprint
          basePos = (s.table.assign req basePos prot).1.posIn)
  eviction : ∀ req : HttpParsedRequest, Counted (s.steps + 1) →
    (s.table.assign req basePos (protectedSlots n s.held)).1.evicted = true →
    ∃ i, (s.table.assign req basePos (protectedSlots n s.held)).1.slot = some i ∧
      (∀ e ∈ s.held, e.2.slot ≠ some i) ∧
      ∀ j < n, j ≠ i → (∀ e ∈ s.held, e.2.slot ≠ some j) → s.usedAt i < s.usedAt j

section LeastRecent
variable {slots : List SessionSlot} {prot : List Bool} {i j : ℕ}

/-- One slot of the search for the least recently used. -/
def older (prot : List Bool) (best : UInt64 × Option ℕ) (s : SessionSlot × ℕ) :
    UInt64 × Option ℕ :=
  if prot.getD s.2 false then best
  else if s.1.lastUsed < best.1 then (s.1.lastUsed, some s.2)
  else best

theorem leastRecent_eq (slots : List SessionSlot) (prot : List Bool) :
    SessionTable.leastRecent slots prot =
      (slots.zipIdx.foldl (older prot) (0xffffffffffffffff, none)).2 := rfl

/-- The search ends below its start and below every unprotected slot, and it has found the slot
it stands at. -/
theorem foldl_older (prot : List Bool) (l : List (SessionSlot × ℕ)) (best : UInt64 × Option ℕ) :
    (l.foldl (older prot) best).1 ≤ best.1 ∧
      (∀ s ∈ l, prot.getD s.2 false = false → (l.foldl (older prot) best).1 ≤ s.1.lastUsed) ∧
      (l.foldl (older prot) best = best ∨
        ∃ s ∈ l, l.foldl (older prot) best = (s.1.lastUsed, some s.2)) := by
  induction l generalizing best with
  | nil => exact ⟨UInt64.le_refl _, by simp, Or.inl rfl⟩
  | cons s l ih =>
    obtain ⟨hle, hall, hfound⟩ := ih (older prot best s)
    rw [List.foldl_cons]
    have hstep : (older prot best s).1 ≤ best.1 ∧
        (prot.getD s.2 false = false → (older prot best s).1 ≤ s.1.lastUsed) ∧
        (older prot best s = best ∨ older prot best s = (s.1.lastUsed, some s.2)) := by
      unfold older
      split_ifs with hprot hlt
      · exact ⟨UInt64.le_refl _,
          fun h => absurd (h.symm.trans hprot) Bool.false_ne_true, Or.inl rfl⟩
      · exact ⟨UInt64.le_of_lt hlt, fun _ => UInt64.le_refl _, Or.inr rfl⟩
      · exact ⟨UInt64.le_refl _, fun _ => UInt64.not_lt.mp hlt, Or.inl rfl⟩
    refine ⟨UInt64.le_trans hle hstep.1, ?_, ?_⟩
    · intro s' hs' hprot
      rcases List.mem_cons.mp hs' with rfl | hm
      · exact UInt64.le_trans hle (hstep.2.1 hprot)
      · exact hall s' hm hprot
    · rcases hfound with heq | ⟨s', hs', heq⟩
      · rcases hstep.2.2 with hsame | hnew
        · exact Or.inl (heq.trans hsame)
        · exact Or.inr ⟨s, List.mem_cons_self, heq.trans hnew⟩
      · exact Or.inr ⟨s', List.mem_cons_of_mem _ hs', heq⟩

theorem mem_zipIdx_get (hj : j < slots.length) : (slots[j], j) ∈ slots.zipIdx := by
  rw [List.mem_zipIdx_iff_getElem?]
  exact List.getElem?_eq_getElem hj

/-- No unprotected slot has an earlier time than the one chosen. -/
theorem leastRecent_le (h : SessionTable.leastRecent slots prot = some i) (hj : j < slots.length)
    (hprot : prot.getD j false = false) :
    (slots.getD i {}).lastUsed ≤ (slots.getD j {}).lastUsed := by
  rw [leastRecent_eq] at h
  obtain ⟨-, hall, hfound⟩ := foldl_older prot slots.zipIdx (0xffffffffffffffff, none)
  have hle := hall _ (mem_zipIdx_get hj) hprot
  rcases hfound with heq | ⟨s, hs, heq⟩
  · rw [heq] at h
    cases h
  · rw [heq] at h hle
    obtain rfl := Option.some.inj h
    have hget := List.mem_zipIdx_iff_getElem?.mp hs
    rw [List.getD_eq_getElem?_getD, List.getD_eq_getElem?_getD, hget,
      List.getElem?_eq_getElem hj]
    exact hle

/-- An unprotected slot below the largest time is enough for a choice. -/
theorem leastRecent_isSome (prot : List Bool) (hj : j < slots.length)
    (hprot : prot.getD j false = false) (hlt : (slots.getD j {}).lastUsed < 0xffffffffffffffff) :
    (SessionTable.leastRecent slots prot).isSome = true := by
  rw [leastRecent_eq]
  obtain ⟨-, hall, hfound⟩ := foldl_older prot slots.zipIdx (0xffffffffffffffff, none)
  have hle := hall _ (mem_zipIdx_get hj) hprot
  rcases hfound with heq | ⟨s, -, heq⟩
  · rw [heq] at hle
    rw [List.getD_eq_getElem _ _ hj] at hlt
    exact absurd hle (UInt64.not_le.mpr hlt)
  · rw [heq]
    rfl

end LeastRecent

section Stamps
variable {t t' : SessionTable} {steps : ℕ} {usedAt : ℕ → ℕ} {i : ℕ} {slot : SessionSlot}

/-- The 64-bit times of the table are the recorded steps, and no two slots were used at once. -/
structure Stamped (t : SessionTable) (steps : ℕ) (usedAt : ℕ → ℕ) : Prop where
  clock : t.clock.toNat = steps % 2 ^ 64
  lastUsed : ∀ i, (t.slot i).lastUsed.toNat = usedAt i % 2 ^ 64
  le : ∀ i, usedAt i ≤ steps
  once : ∀ i j, usedAt i = usedAt j → i = j ∨ usedAt i = 0
  occupied : ∀ i, (t.slot i).occupied = true → 0 < usedAt i

theorem slot_init (n i : ℕ) : (SessionTable.init n).slot i = {} := by
  simp only [SessionTable.slot, SessionTable.init, List.getD_eq_getElem?_getD,
    List.getElem?_replicate]
  split_ifs <;> rfl

theorem Stamped.init (n : ℕ) : Stamped (.init n) 0 fun _ => 0 := by
  refine ⟨rfl, fun i => ?_, fun _ => le_refl _, fun _ _ _ => Or.inr rfl, fun i hocc => ?_⟩
  · rw [slot_init]
    rfl
  · rw [slot_init] at hocc
    cases hocc

theorem Stamped.next (h : Stamped t steps usedAt) :
    (t.clock + 1).toNat = (steps + 1) % 2 ^ 64 := by
  rw [UInt64.toNat_add, h.clock, UInt64.toNat_one, Nat.mod_add_mod]

/-- A step that uses slot `i`. -/
theorem Stamped.tick (h : Stamped t steps usedAt) (hi : i < t.slots.length)
    (hslots : t'.slots = t.slots.set i slot) (hclock : t'.clock = t.clock + 1)
    (hlast : slot.lastUsed = t.clock + 1) :
    Stamped t' (steps + 1) fun j => if some i = some j then steps + 1 else usedAt j := by
  have hnew : ∀ j, (if some i = some j then steps + 1 else usedAt j)
      = if j = i then steps + 1 else usedAt j := fun j => by simp [eq_comm]
  simp only [hnew]
  refine ⟨hclock ▸ h.next, fun j => ?_, fun j => ?_, fun j k hjk => ?_, fun j hocc => ?_⟩
  · rw [slot_of_set hi hslots]
    split_ifs with hj
    · rw [hlast, h.next]
    · exact h.lastUsed j
  · split_ifs with hj
    · exact le_refl _
    · exact (h.le j).trans (Nat.le_succ _)
  · split_ifs at hjk ⊢ with hj hk hk
    · exact Or.inl (hj.trans hk.symm)
    · have := h.le k
      omega
    · have := h.le j
      omega
    · exact h.once j k hjk
  · rw [slot_of_set hi hslots] at hocc
    split_ifs at hocc ⊢ with hj
    · exact Nat.succ_pos _
    · exact h.occupied j hocc

/-- A step that uses no slot. -/
theorem Stamped.idle (h : Stamped t steps usedAt) (hslots : t'.slots = t.slots)
    (hclock : t'.clock = t.clock + 1) : Stamped t' (steps + 1) usedAt := by
  have hslot : ∀ i, t'.slot i = t.slot i := fun i => by simp [SessionTable.slot, hslots]
  refine ⟨hclock ▸ h.next, fun i => ?_, fun i => (h.le i).trans (Nat.le_succ _), h.once,
    fun i hocc => ?_⟩
  · rw [hslot]
    exact h.lastUsed i
  · rw [hslot] at hocc
    exact h.occupied i hocc

/-- Before the clock wraps the table's times are in the order of use. -/
theorem Stamped.usedAt_eq (h : Stamped t steps usedAt) (hsteps : steps < 2 ^ 64) (i : ℕ) :
    (t.slot i).lastUsed.toNat = usedAt i := by
  rw [h.lastUsed]
  exact Nat.mod_eq_of_lt ((h.le i).trans_lt hsteps)

end Stamps

section Steps
variable {t : SessionTable} {req : HttpParsedRequest} {basePos : UInt64} {prot : List Bool}
  {i : ℕ}

theorem assign_clock (t : SessionTable) (req : HttpParsedRequest) (basePos : UInt64)
    (prot : List Bool) : (t.assign req basePos prot).2.clock = t.clock + 1 := by
  unfold SessionTable.assign
  cases t.find req.cacheKey with
  | some i =>
    dsimp only
    split_ifs <;> rfl
  | none =>
    cases t.slots.findIdx? (fun slot => !slot.occupied) with
    | some i => rfl
    | none => cases SessionTable.leastRecent t.slots prot <;> rfl

/-- The slot an assignment gives is used now. -/
theorem assign_slots (h : (t.assign req basePos prot).1.slot = some i) :
    ∃ slot : SessionSlot, (t.assign req basePos prot).2.slots = t.slots.set i slot ∧
      slot.lastUsed = t.clock + 1 := by
  have hassigned := assigned t req basePos prot
  generalize t.assign req basePos prot = r at h hassigned
  obtain ⟨a, t'⟩ := r
  cases hassigned with
  | refuse => cases h
  | hit _ _ _ ha hslots =>
    obtain rfl := Option.some.inj (ha.1.symm.trans h)
    exact ⟨_, hslots, rfl⟩
  | restart _ _ ha hslots =>
    obtain rfl := Option.some.inj (ha.1.symm.trans h)
    exact ⟨_, hslots, rfl⟩
  | claim _ _ _ ha hslots =>
    obtain rfl := Option.some.inj (ha.1.symm.trans h)
    exact ⟨_, hslots, rfl⟩

/-- A slot is taken from a session only where all are occupied, and then by the search. -/
theorem assign_evicted (h : (t.assign req basePos prot).1.evicted = true) :
    ∃ i, (t.assign req basePos prot).1.slot = some i ∧
      SessionTable.leastRecent t.slots prot = some i ∧
      ∀ j < t.slots.length, (t.slot j).occupied = true := by
  unfold SessionTable.assign at h ⊢
  cases hfind : t.find req.cacheKey with
  | some i =>
    rw [hfind] at h
    dsimp only at h
    split_ifs at h
  | none =>
    rw [hfind] at h
    cases hfree : t.slots.findIdx? (fun slot => !slot.occupied) with
    | some i =>
      rw [hfree] at h
      cases h
    | none =>
      rw [hfree] at h
      cases hlru : SessionTable.leastRecent t.slots prot with
      | none =>
        rw [hlru] at h
        cases h
      | some i =>
        refine ⟨i, rfl, rfl, fun j hj => ?_⟩
        have hfull := List.findIdx?_eq_none_iff.mp hfree _ (List.getElem_mem hj)
        simpa [SessionTable.slot, hj] using hfull

theorem assign_known (req : HttpParsedRequest) (basePos : UInt64) (prot : List Bool)
    (h : t.find req.cacheKey = some i) :
    (t.assign req basePos prot).1.slot = some i := by
  unfold SessionTable.assign
  rw [h]
  dsimp only
  split_ifs <;> rfl

/-- A new session takes a slot from another one where all are occupied. -/
theorem assign_evicts (basePos : UInt64) (hfind : t.find req.cacheKey = none)
    (hfull : ∀ j < t.slots.length, (t.slot j).occupied = true)
    (hlru : (SessionTable.leastRecent t.slots prot).isSome = true) :
    (t.assign req basePos prot).1.evicted = true := by
  have hfree : t.slots.findIdx? (fun slot => !slot.occupied) = none := by
    apply List.findIdx?_eq_none_iff.mpr
    intro slot hslot
    obtain ⟨j, hj, rfl⟩ := List.mem_iff_getElem.mp hslot
    have := hfull j hj
    simpa [SessionTable.slot, hj] using this
  obtain ⟨i, hi⟩ := Option.isSome_iff_exists.mp hlru
  unfold SessionTable.assign
  rw [hfind, hfree, hi]

/-- An assignment fails only where the search finds nothing. -/
theorem assign_isSome (h : (SessionTable.leastRecent t.slots prot).isSome = true) :
    (t.assign req basePos prot).1.slot.isSome = true := by
  unfold SessionTable.assign
  cases t.find req.cacheKey with
  | some i =>
    dsimp only
    split_ifs <;> rfl
  | none =>
    cases t.slots.findIdx? (fun slot => !slot.occupied) with
    | some i => rfl
    | none =>
      obtain ⟨i, hi⟩ := Option.isSome_iff_exists.mp h
      rw [hi]
      rfl

theorem assign_preview (t : SessionTable) (req : HttpParsedRequest) (basePos : UInt64)
    (prot : List Bool) :
    (t.previewHit req.cacheKey req.promptFingerprintPresent req.promptFingerprint).isSome =
      (t.assign req basePos prot).1.hit := by
  unfold SessionTable.previewHit SessionTable.assign
  cases t.find req.cacheKey with
  | some i =>
    dsimp only
    split_ifs <;> rfl
  | none =>
    cases t.slots.findIdx? (fun slot => !slot.occupied) with
    | some i => rfl
    | none => cases SessionTable.leastRecent t.slots prot <;> rfl

end Steps

section Invariant
variable {n : ℕ} {s : Clocked} {basePos : UInt64} {req : HttpParsedRequest}

structure ClockInv (n : ℕ) (s : Clocked) : Prop where
  length : s.table.slots.length = n
  keys : OneSlotPerKey s.table
  batch : BatchInv s.table s.held
  stamped : Stamped s.table s.steps s.usedAt

theorem ClockInv.init (n : ℕ) : ClockInv n (.init n) := by
  refine ⟨List.length_replicate, fun i j hocc => ?_, BatchInv.nil _, Stamped.init n⟩
  rw [show (Clocked.init n).table.slot i = {} from slot_init n i] at hocc
  cases hocc

theorem ClockInv.assign (h : ClockInv n s) (hkeys : ∀ e ∈ s.held, e.1.cacheKey ≠ req.cacheKey) :
    ClockInv n (s.assign req basePos) := by
  have hassigned := assigned s.table req basePos (protectedSlots s.table.slots.length s.held)
  refine ⟨hassigned.length_eq.trans h.length, h.keys.assign hassigned, ?_, ?_⟩
  · unfold Clocked.assign
    dsimp only
    split_ifs with hsome
    · obtain ⟨i, hi⟩ := Option.isSome_iff_exists.mp hsome
      exact h.batch.extend hassigned hkeys hi (assigned_cacheKey _ _)
    · exact BatchInv.nil _
  · unfold Clocked.assign Clocked.use
    dsimp only
    cases hslot : (s.table.assign req basePos
        (protectedSlots s.table.slots.length s.held)).1.slot with
    | none => exact h.stamped.idle (hassigned.refused hslot) (assign_clock _ _ _ _)
    | some i =>
      obtain ⟨slot, hslots, hlast⟩ := assign_slots hslot
      exact h.stamped.tick (hassigned.slot_lt hslot) hslots (assign_clock _ _ _ _) hlast

/-- A commit changes the slot of its request, which is used now. -/
theorem commit_slots {t : SessionTable} {e : Held} {i : ℕ} (hi : i < t.slots.length)
    (hei : e.2.slot = some i) (promptTokens generatedTokens positionAdvance : UInt64)
    (selectedTokens mtpRawRows : List UInt32) :
    ∃ slot : SessionSlot, ((t.commit e.2 promptTokens generatedTokens positionAdvance
        selectedTokens).setMtpRawRows e.2.slot mtpRawRows).slots = t.slots.set i slot ∧
      slot.lastUsed = t.clock + 1 ∧ slot.occupied = (t.slot i).occupied ∧
      slot.key = (t.slot i).key ∧
      ((t.commit e.2 promptTokens generatedTokens positionAdvance
        selectedTokens).setMtpRawRows e.2.slot mtpRawRows).clock = t.clock + 1 := by
  simp only [SessionTable.commit, SessionTable.setMtpRawRows, hei, if_pos hi, List.set_set]
  refine ⟨_, rfl, ?_⟩
  simp [SessionTable.slot, hi, SessionSlot.commit]

theorem OneSlotPerKey.set {t t' : SessionTable} {i : ℕ} {slot : SessionSlot}
    (h : OneSlotPerKey t) (hi : i < t.slots.length) (hslots : t'.slots = t.slots.set i slot)
    (hocc : slot.occupied = (t.slot i).occupied) (hkey : slot.key = (t.slot i).key) :
    OneSlotPerKey t' := by
  have hocc' : ∀ j, (t'.slot j).occupied = (t.slot j).occupied := by
    intro j
    rw [slot_of_set hi hslots]
    split_ifs with hj
    · rw [hj, hocc]
    · rfl
  have hkey' : ∀ j, (t'.slot j).key = (t.slot j).key := by
    intro j
    rw [slot_of_set hi hslots]
    split_ifs with hj
    · rw [hj, hkey]
    · rfl
  intro j k hj hk hjk
  rw [hocc'] at hj hk
  rw [hkey', hkey'] at hjk
  exact h j k hj hk hjk

theorem ClockInv.commit (h : ClockInv n s) (promptTokens generatedTokens positionAdvance : UInt64)
    (selectedTokens mtpRawRows : List UInt32) : ClockInv n
      (s.commit promptTokens generatedTokens positionAdvance selectedTokens mtpRawRows) := by
  unfold Clocked.commit
  cases hheld : s.held with
  | nil => exact h
  | cons e rest =>
    obtain ⟨i, hi, hei, -⟩ := h.batch.holds e (hheld ▸ List.mem_cons_self)
    obtain ⟨slot, hslots, hlast, hocc, hkey, hclock⟩ := commit_slots hi hei promptTokens
      generatedTokens positionAdvance selectedTokens mtpRawRows
    constructor
    · show List.length _ = n
      rw [hslots, List.length_set, h.length]
    · exact h.keys.set hi hslots hocc hkey
    · exact (hheld ▸ h.batch).rest hei hslots
    · have htick := h.stamped.tick hi hslots hclock hlast
      rw [← hei] at htick
      exact htick

theorem TableRun.inv (h : TableRun n basePos s) : ClockInv n s := by
  induction h with
  | init => exact ClockInv.init n
  | assign req _ hkeys ih => exact ih.assign hkeys
  | commit p g a l m _ ih => exact ih.commit p g a l m
  | finish _ ih => exact ⟨ih.length, ih.keys, BatchInv.nil _, ih.stamped⟩

end Invariant

section Reached
variable {n : ℕ} {s : Clocked} {basePos : UInt64} {req : HttpParsedRequest} {i j : ℕ}

/-- A batch that is smaller than the table leaves a slot alone. -/
theorem exists_unheld (held : List Held) (hlen : held.length < n) :
    ∃ j < n, ∀ e ∈ held, e.2.slot ≠ some j := by
  have hcard : (held.filterMap (·.2.slot)).toFinset.card < (Finset.range n).card := by
    rw [Finset.card_range]
    exact ((List.toFinset_card_le _).trans (List.length_filterMap_le _ _)).trans_lt hlen
  obtain ⟨j, hj, hnot⟩ := Finset.exists_mem_notMem_of_card_lt_card hcard
  refine ⟨j, Finset.mem_range.mp hj, fun e he hej => hnot ?_⟩
  rw [List.mem_toFinset]
  exact List.mem_filterMap.mpr ⟨e, he, hej⟩

theorem assign_succeeds (req : HttpParsedRequest) (basePos : UInt64) (h : ClockInv n s)
    (hlen : s.held.length < n) (hsteps : s.steps + 1 < 2 ^ 64) :
    (s.table.assign req basePos (protectedSlots s.table.slots.length s.held)).1.slot.isSome := by
  obtain ⟨j, hj, hfree⟩ := exists_unheld s.held hlen
  rw [← h.length] at hj
  refine assign_isSome (leastRecent_isSome _ hj ((protectedSlots_eq hj).mpr hfree) ?_)
  show (s.table.slot j).lastUsed < _
  rw [UInt64.lt_iff_toNat_lt, h.stamped.usedAt_eq (by omega) j]
  have hle := h.stamped.le j
  have hmax : (0xffffffffffffffff : UInt64).toNat = 2 ^ 64 - 1 := rfl
  omega

/-- The requests of a batch that fits get their slots one after the other. -/
theorem assignBatch_succeeds (reqs : List HttpParsedRequest) (h : ClockInv n s)
    (hkeys : reqs.Pairwise fun r r' => r.cacheKey ≠ r'.cacheKey)
    (hheld : ∀ e ∈ s.held, ∀ r ∈ reqs, e.1.cacheKey ≠ r.cacheKey)
    (hlen : s.held.length + reqs.length ≤ n) (hsteps : s.steps + reqs.length < 2 ^ 64) :
    ∃ t' held', assignBatch basePos reqs s.table s.held = (t', some held') ∧ BatchInv t' held' ∧
      held'.map (·.1.cacheKey) = s.held.map (·.1.cacheKey) ++ reqs.map (·.cacheKey) := by
  induction reqs generalizing s with
  | nil => exact ⟨s.table, s.held, rfl, h.batch, (List.append_nil _).symm⟩
  | cons req reqs ih =>
    rw [List.length_cons] at hlen hsteps
    obtain ⟨hreq, hrest⟩ := List.pairwise_cons.mp hkeys
    have hsome := assign_succeeds req basePos h (by omega) (by omega)
    have hnext : (s.assign req basePos).held = s.held ++ [(req.assigned (s.table.assign req
        basePos (protectedSlots s.table.slots.length s.held)).1, (s.table.assign req basePos
          (protectedSlots s.table.slots.length s.held)).1)] := if_pos hsome
    have hinv : ClockInv n (s.assign req basePos) :=
      h.assign fun e he => hheld e he req List.mem_cons_self
    obtain ⟨t', held', hrun, hbatch, hmap⟩ := ih hinv hrest
      (by
        intro e he r hr
        rw [hnext] at he
        rcases List.mem_append.mp he with hm | hm
        · exact hheld e hm r (List.mem_cons_of_mem _ hr)
        · rw [List.mem_singleton.mp hm]
          exact hreq r hr)
      (by rw [hnext, List.length_append, List.length_singleton]; omega)
      (by show s.steps + 1 + _ < _; omega)
    refine ⟨t', held', ?_, hbatch, ?_⟩
    · obtain ⟨i, hi⟩ := Option.isSome_iff_exists.mp hsome
      rw [hnext] at hrun
      simp only [assignBatch, hi]
      exact hrun
    · rw [hmap, hnext, List.map_append, List.append_assoc]
      rfl

/-- The slot taken from a session is the one whose last use is earliest among those the batch
leaves free. -/
theorem evicted_least (h : ClockInv n s) (hsteps : s.steps + 1 < 2 ^ 64)
    (hev : (s.table.assign req basePos (protectedSlots n s.held)).1.evicted = true) :
    ∃ i, (s.table.assign req basePos (protectedSlots n s.held)).1.slot = some i ∧
      (∀ e ∈ s.held, e.2.slot ≠ some i) ∧
      ∀ j < n, j ≠ i → (∀ e ∈ s.held, e.2.slot ≠ some j) → s.usedAt i < s.usedAt j := by
  obtain ⟨i, hslot, hlru, hfull⟩ := assign_evicted hev
  obtain ⟨hi, hprot⟩ := leastRecent_some hlru
  rw [h.length] at hi
  refine ⟨i, hslot, (protectedSlots_eq hi).mp hprot, fun j hj hji hfree => ?_⟩
  have hle : (s.table.slot i).lastUsed ≤ (s.table.slot j).lastUsed :=
    leastRecent_le hlru (h.length ▸ hj) ((protectedSlots_eq hj).mpr hfree)
  rw [UInt64.le_iff_toNat_le, h.stamped.usedAt_eq (by omega) i,
    h.stamped.usedAt_eq (by omega) j] at hle
  refine lt_of_le_of_ne hle fun heq => ?_
  have hused := h.stamped.occupied i (hfull i (h.length ▸ hi))
  rcases h.stamped.once i j heq with hij | hzero
  · exact hji hij.symm
  · omega

end Reached

/-- In a run of fewer than `2 ^ 64` assignments and commits keys are distinct, batches that fit
get slots of their own, previews agree with assignments and evictions follow the order of use. -/
theorem sessions_sound {n : ℕ} {basePos : UInt64} {s : Clocked} (h : TableRun n basePos s) :
    SessionsSound (· < 2 ^ 64) n basePos s := by
  have hinv := h.inv
  constructor
  · exact hinv.keys
  · intro reqs hkeys hlen hsteps
    have hempty : ClockInv n s.finish :=
      ⟨hinv.length, hinv.keys, BatchInv.nil _, hinv.stamped⟩
    exact assignBatch_succeeds reqs hempty hkeys (by simp [Clocked.finish])
      (by simpa [Clocked.finish] using hlen) hsteps
  · intro req prot
    refine ⟨assign_preview _ _ _ _, fun hsome => ?_⟩
    obtain ⟨i, hi⟩ := Option.isSome_iff_exists.mp hsome
    exact ((assigned s.table req basePos prot).posIn_eq hi).symm
  · intro req hsteps hev
    exact evicted_least hinv hsteps hev

section Wrap

def keyRequest (key : String) : HttpParsedRequest where
  body := ⟨none, some key, none, [], none, noMaxTokens_le, noTokens_le⟩
  cacheKey := key
  requestedTokens_lt := noRequestedTokens_lt
  promptTokenIds_le := noTokens_le

/-- Two sessions with a turn each, the first of them twice. -/
def threeTurns : Clocked :=
  (((Clocked.init 2).assign (keyRequest "a") 0).finish.assign (keyRequest "b") 0).finish.assign
    (keyRequest "a") 0 |>.finish

theorem threeTurns_run : TableRun 2 0 threeTurns :=
  .finish (.assign _ (.finish (.assign _ (.finish (.assign _ .init (by simp [Clocked.init])))
    (by simp [Clocked.finish]))) (by simp [Clocked.finish]))

theorem threeTurns_sound : SessionsSound (· < 2 ^ 64) 2 0 threeTurns :=
  sessions_sound threeTurns_run

/-- One session goes on and on beside another that stays idle. -/
structure Idling (s : Clocked) : Prop where
  run : TableRun 2 0 s
  held : s.held = []
  busy : (s.table.slot 0).occupied = true ∧ (s.table.slot 0).key = "a"
  idle : (s.table.slot 1).occupied = true ∧ (s.table.slot 1).key = "b"
  usedAt : s.usedAt 0 = s.steps ∧ s.usedAt 1 = 2

theorem threeTurns_idling : Idling threeTurns := by
  refine ⟨threeTurns_run, rfl, ?_, ?_, ?_⟩ <;> decide

theorem Idling.turn {s : Clocked} (h : Idling s) :
    Idling (s.assign (keyRequest "a") 0).finish ∧
      (s.assign (keyRequest "a") 0).finish.steps = s.steps + 1 := by
  have hinv := h.run.inv
  have hlen : 0 < s.table.slots.length := by rw [hinv.length]; norm_num
  obtain ⟨k, hfind⟩ := Option.ne_none_iff_exists'.mp (find_of_occupied h.busy.1 h.busy.2)
  obtain ⟨-, hocck, hkeyk⟩ := find_some hfind
  obtain rfl := hinv.keys 0 k h.busy.1 hocck (h.busy.2.trans hkeyk.symm)
  have hassigned := assigned s.table (keyRequest "a") 0
    (protectedSlots s.table.slots.length s.held)
  have hslot := assign_known (keyRequest "a") 0
    (protectedSlots s.table.slots.length s.held) hfind
  obtain ⟨slot, hslots, hocc, hkey, -⟩ := hassigned.slots_eq hslot
  have hset := slot_of_set hlen hslots
  refine ⟨⟨.finish (.assign _ h.run (by simp [h.held])), rfl, ?_, ?_, ?_, ?_⟩, rfl⟩
  · show ((s.assign (keyRequest "a") 0).table.slot 0).occupied = true ∧ _
    unfold Clocked.assign Clocked.finish
    dsimp only
    rw [hset 0, if_pos rfl]
    exact ⟨hocc, hkey⟩
  · unfold Clocked.assign Clocked.finish
    dsimp only
    rw [hset 1, if_neg one_ne_zero]
    exact h.idle
  · unfold Clocked.assign Clocked.finish Clocked.use
    dsimp only
    rw [if_pos hslot]
  · unfold Clocked.assign Clocked.finish Clocked.use
    dsimp only
    rw [if_neg (by rw [hslot]; decide)]
    exact h.usedAt.2

/-- The idle session outlives any number of turns of the other. -/
theorem exists_idling (m : ℕ) : ∃ s, Idling s ∧ s.steps = m + 3 := by
  induction m with
  | zero => exact ⟨threeTurns, threeTurns_idling, by decide⟩
  | succ m ih =>
    obtain ⟨s, hs, hsteps⟩ := ih
    exact ⟨_, hs.turn.1, by rw [hs.turn.2, hsteps]⟩

/-- Behind `2 ^ 64` steps the slot used last has time zero and is the one taken. -/
theorem sessions_wrap : ¬ ∀ (n : ℕ) (basePos : UInt64) (s : Clocked), TableRun n basePos s →
    SessionsSound (fun _ => True) n basePos s := by
  intro hall
  obtain ⟨s, hs, hsteps⟩ := exists_idling (2 ^ 64 - 3)
  have hinv := hs.run.inv
  have htime : (s.table.slot 0).lastUsed.toNat = 0 ∧ (s.table.slot 1).lastUsed.toNat = 2 := by
    rw [hinv.stamped.lastUsed, hinv.stamped.lastUsed, hs.usedAt.1, hs.usedAt.2, hsteps]
    norm_num
  have hslots : ∀ j < s.table.slots.length, j = 0 ∨ j = 1 := by
    intro j hj
    rw [hinv.length] at hj
    omega
  have hnew : s.table.find (keyRequest "c").cacheKey = none := by
    by_contra hfind
    obtain ⟨k, hk⟩ := Option.ne_none_iff_exists'.mp hfind
    obtain ⟨hlt, -, hkey⟩ := find_some hk
    rcases hslots k hlt with rfl | rfl
    · exact absurd (hs.busy.2.symm.trans hkey) (by decide)
    · exact absurd (hs.idle.2.symm.trans hkey) (by decide)
  have hfull : ∀ j < s.table.slots.length, (s.table.slot j).occupied = true := by
    intro j hj
    rcases hslots j hj with rfl | rfl
    · exact hs.busy.1
    · exact hs.idle.1
  have hfree : ∀ j < 2, (protectedSlots 2 s.held).getD j false = false := fun j hj =>
    (protectedSlots_eq hj).mpr (by simp [hs.held])
  have hlru := leastRecent_isSome (protectedSlots 2 s.held)
    (by rw [hinv.length]; norm_num : 0 < s.table.slots.length) (hfree 0 two_pos)
    (by show (s.table.slot 0).lastUsed < _; rw [UInt64.lt_iff_toNat_lt, htime.1]; decide)
  have hev := assign_evicts 0 hnew hfull hlru
  obtain ⟨i, hslot, -, hleast⟩ := (hall 2 0 s hs.run).eviction (keyRequest "c") trivial hev
  obtain ⟨i', hslot', hfound, -⟩ := assign_evicted hev
  obtain rfl := Option.some.inj (hslot.symm.trans hslot')
  rcases hslots i (leastRecent_some hfound).1 with rfl | rfl
  · have := hleast 1 (by norm_num) (by norm_num) (by simp [hs.held])
    rw [hs.usedAt.1, hs.usedAt.2, hsteps] at this
    norm_num at this
  · have hle : (s.table.slot 1).lastUsed ≤ (s.table.slot 0).lastUsed :=
      leastRecent_le hfound (by rw [hinv.length]; norm_num) (hfree 0 two_pos)
    rw [UInt64.le_iff_toNat_le, htime.1, htime.2] at hle
    norm_num at hle

end Wrap

end Ds4.Appliance
