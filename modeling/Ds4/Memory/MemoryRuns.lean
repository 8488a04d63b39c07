import Ds4.Memory.Recency
import Ds4.Memory.ToolMapRecords

/-! Runs of the tool memory: its structures agree and its limits hold after every operation, and
it holds what a store by recency holds: what goes is what was touched longest ago. -/
namespace Ds4.Memory
open ToolMemory Parts

/-- The operations on the memory, with what they are given; the lookups and scans of a request
come in any order. -/
inductive MemoryOp
  | put (id dsml : Bytes) (source : Source)
  | lookup (id : Bytes)
  | touch (id : Bytes)
  | remember (ids : List Bytes) (rawDsml : Bytes)
  | load (wanted : Option (List Bytes)) (s : Bytes)
  | save (text : Bytes)
  | prune

/-- `tool_memory_touch`, of the entry an id has. -/
def touchId (m : ToolMemory) (id : Bytes) : ToolMemory :=
  match m.findEntry (cstr id) with
  | none => m
  | some a => m.touch a

def memoryStep (m : ToolMemory) : MemoryOp → ToolMemory
  | .put id dsml source => m.put id dsml source
  | .lookup id => (m.lookup (cstr id)).2
  | .touch id => touchId m id
  | .remember ids rawDsml => m.remember ids rawDsml
  | .load wanted s => (m.kvToolMapLoad wanted s).1
  | .save text => (m.kvToolMapWrite text).1
  | .prune => m.prune

/-- The memory behind a run that starts with an empty one. -/
def memoryRun (maxEntries : ℤ) (maxBytes : ℕ) (ops : List MemoryOp) : ToolMemory :=
  ops.foldl memoryStep (ToolMemory.empty maxEntries maxBytes)

section Loads
variable {wanted : Option (List Bytes)} {s : Bytes}

/-- The records of a section that are put. -/
def loadedRecords (wanted : Option (List Bytes)) : ℕ → Bytes → List (Bytes × Bytes)
  | 0, _ => []
  | count + 1, s =>
      match readRecord s with
      | none => []
      | some (r, rest) =>
          if isWanted wanted (cstr r.1) then r :: loadedRecords wanted count rest
          else loadedRecords wanted count rest

theorem loadRecords_puts (count : ℕ) : ∀ (m : ToolMemory) (n : ℕ) (s : Bytes),
    (loadRecords wanted count m n s).1 = putAll .disk m (loadedRecords wanted count s) := by
  induction count with
  | zero => exact fun m n s => rfl
  | succ count ih =>
    intro m n s
    rw [loadRecords, loadedRecords]
    cases readRecord s with
    | none => rfl
    | some p =>
      obtain ⟨⟨id, dsml⟩, rest⟩ := p
      simp only
      split_ifs
      · exact ih _ _ _
      · exact ih _ _ _

/-- What a load puts into a memory. -/
def sectionRecords (entryLimit : ℕ) (wanted : Option (List Bytes)) (s : Bytes) :
    List (Bytes × Bytes) :=
  let count := leGet ((s.drop 4).take 4)
  if s.length < 8 ∨ s.take 4 ≠ toolMapMagic ∨ entryLimit * 4 < count then []
  else loadedRecords wanted count (s.drop 8)

theorem load_puts (m : ToolMemory) (wanted : Option (List Bytes)) (s : Bytes) :
    (m.kvToolMapLoad wanted s).1 = putAll .disk m (sectionRecords m.entryLimit wanted s) := by
  unfold kvToolMapLoad sectionRecords
  simp only
  by_cases hlen : s.length < 8
  · rw [if_pos hlen, if_pos (Or.inl hlen)]
    rfl
  · rw [if_neg hlen]
    by_cases hmagic : s.take 4 ≠ toolMapMagic
    · rw [if_pos hmagic, if_pos (Or.inr (Or.inl hmagic))]
      rfl
    · rw [if_neg hmagic]
      split_ifs with hcount hany hany
      · rfl
      · exact absurd (Or.inr (Or.inr hcount)) hany
      · exact absurd hany (not_or.2 ⟨hlen, not_or.2 ⟨hmagic, hcount⟩⟩)
      · exact loadRecords_puts _ _ _ _

/-- What a turn's calls put. -/
def callRecords (ids : List Bytes) (rawDsml : Bytes) : List (Bytes × Bytes) :=
  ids.map fun id => (id, rawDsml)

theorem remember_puts (m : ToolMemory) (ids : List Bytes) (rawDsml : Bytes) :
    m.remember ids rawDsml = putAll .ram m (callRecords ids rawDsml) := by
  unfold remember putAll callRecords
  rw [List.foldl_map]
  split_ifs with hraw
  · have hput : ∀ (m : ToolMemory) (id : Bytes), m.put id rawDsml .ram = m := by
      intro m id
      rw [hraw]
      exact if_pos (Or.inr rfl)
    simp only [hput, List.foldl_fixed]
  · rfl

end Loads

section Recency

/-- The ids among the records that are put: a record without an id or a text is not. -/
def putIds : List (Bytes × Bytes) → List Bytes
  | [] => []
  | r :: rs => if cstr r.1 = [] ∨ cstr r.2 = [] then putIds rs else cstr r.1 :: putIds rs

/-- The ids whose entries an operation touches, in this order. -/
def touchedIds (m : ToolMemory) : MemoryOp → List Bytes
  | .put id dsml _ => putIds [(id, dsml)]
  | .lookup id => if (m.findEntry (cstr id)).isSome then [cstr id] else []
  | .touch id => if (m.findEntry (cstr id)).isSome then [cstr id] else []
  | .remember ids rawDsml => putIds (callRecords ids rawDsml)
  | .load wanted s => putIds (sectionRecords m.entryLimit wanted s)
  | .save _ => []
  | .prune => []

/-- The ids a run touches, in this order. -/
def runTouches : ToolMemory → List MemoryOp → List Bytes
  | _, [] => []
  | m, op :: ops => touchedIds m op ++ runTouches (memoryStep m op) ops

/-- What a store by recency does at an operation: lookups and touches bring an id to the front,
puts set it there, and behind each put what does not fit goes from the end. -/
def recentStep (entryLimit byteLimit : ℕ) (kept : List (Bytes × Bytes)) :
    MemoryOp → List (Bytes × Bytes)
  | .put id dsml _ => recentPut entryLimit byteLimit kept (id, dsml)
  | .lookup id => Recent.use (cstr id) kept
  | .touch id => Recent.use (cstr id) kept
  | .remember ids rawDsml =>
      (callRecords ids rawDsml).foldl (recentPut entryLimit byteLimit) kept
  | .load wanted s =>
      (sectionRecords entryLimit wanted s).foldl (recentPut entryLimit byteLimit) kept
  | .save _ => kept
  | .prune => Recent.trim (WithinLimits entryLimit byteLimit) kept

def recentRun (entryLimit byteLimit : ℕ) (ops : List MemoryOp) : List (Bytes × Bytes) :=
  ops.foldl (recentStep entryLimit byteLimit) []

variable {m : ToolMemory} {kept : List (Bytes × Bytes)} {touches : List Bytes}

theorem put_limits (m : ToolMemory) (id dsml : Bytes) (source : Source) :
    (m.put id dsml source).entryLimit = m.entryLimit ∧
      (m.put id dsml source).byteLimit = m.byteLimit := by
  unfold ToolMemory.put
  split_ifs
  · exact ⟨rfl, rfl⟩
  · obtain ⟨hids, hbytes⟩ := pruneLoop_limits
      ((m.place (cstr id) (cstr dsml) source).entries + 1) (m.place (cstr id) (cstr dsml) source)
    obtain ⟨hids', hbytes'⟩ := place_limits m (cstr id) (cstr dsml) source
    exact ⟨hids.trans hids', hbytes.trans hbytes'⟩

theorem putAll_held (source : Source) (rs : List (Bytes × Bytes)) :
    ∀ (m : ToolMemory) (kept : List (Bytes × Bytes)), Holds m kept →
    Holds (putAll source m rs) (rs.foldl (recentPut m.entryLimit m.byteLimit) kept) ∧
      (putAll source m rs).entryLimit = m.entryLimit ∧
      (putAll source m rs).byteLimit = m.byteLimit := by
  induction rs with
  | nil => exact fun m kept h => ⟨h, rfl, rfl⟩
  | cons r rs ih =>
    intro m kept h
    obtain ⟨hids, hbytes⟩ := put_limits m r.1 r.2 source
    obtain ⟨hheld, hids', hbytes'⟩ := ih _ _ (put_held h r.1 r.2 source)
    rw [hids, hbytes] at hheld
    exact ⟨hheld, hids'.trans hids, hbytes'.trans hbytes⟩

theorem recentPuts_touched (entryLimit byteLimit : ℕ) (rs : List (Bytes × Bytes)) :
    ∀ (touches : List Bytes) (kept : List (Bytes × Bytes)), Recent.LastTouched touches kept →
    Recent.LastTouched (touches ++ putIds rs) (rs.foldl (recentPut entryLimit byteLimit) kept) := by
  induction rs with
  | nil =>
    intro touches kept h
    rw [putIds, List.append_nil]
    exact h
  | cons r rs ih =>
    intro touches kept h
    rw [List.foldl_cons, putIds, recentPut]
    split_ifs with hempty
    · exact ih _ _ h
    · rw [← List.singleton_append, ← List.append_assoc]
      exact ih _ _ (h.place.trim _)

end Recency

section Scans
variable {m : ToolMemory} {order blocks : List ℕ} {scan : ℕ}

theorem mark_text (m : ToolMemory) (b scan c : ℕ) :
    ((m.mark b scan).block c).dsml = (m.block c).dsml := by
  unfold mark
  simp only
  by_cases hc : c = b
  · rw [hc, Function.update_self]
  · rw [Function.update_of_ne hc]

/-- A scan changes marks only. -/
theorem mark_sound (h : Sound m order blocks) (hscan : scan ≤ m.scanClock) (b : ℕ) :
    Sound (m.mark b scan) order blocks := by
  have hown : ∀ c, ((m.mark b scan).block c).dsml = (m.block c).dsml ∧
      ((m.mark b scan).block c).bytes = (m.block c).bytes ∧
      ((m.mark b scan).block c).refs = (m.block c).refs ∧
      ((m.mark b scan).block c).entries = (m.block c).entries ∧
      ((m.block c).seen ≤ m.scanClock → ((m.mark b scan).block c).seen ≤ m.scanClock) := by
    intro c
    unfold mark
    simp only
    by_cases hc : c = b
    · rw [hc, Function.update_self]
      exact ⟨rfl, rfl, rfl, rfl, fun _ => hscan⟩
    · rw [Function.update_of_ne hc]
      exact ⟨rfl, rfl, rfl, rfl, id⟩
  exact
    { lru := h.lru
      blocks_nodup := h.blocks_nodup
      byId := h.byId
      byBlock := by
        intro t c
        rw [(hown c).1]
        exact h.byBlock t c
      owner := h.owner
      chain := by
        intro c hc
        rw [(hown c).2.2.2.1]
        exact h.chain c hc
      refs := by
        intro c hc
        rw [(hown c).2.2.1]
        exact h.refs c hc
      count := h.count
      bytes := by
        rw [show (m.mark b scan).bytes = m.bytes from rfl, h.bytes]
        congr 2
        apply List.map_congr_left
        exact fun c _ => (hown c).2.1.symm
      entry_bytes := h.entry_bytes
      block_bytes := by
        intro c hc
        rw [(hown c).2.1, (hown c).1]
        exact h.block_bytes c hc
      stamps := h.stamps
      clock := h.clock
      fresh := h.fresh
      id_ok := h.id_ok
      text_ok := by
        intro c hc
        rw [(hown c).1]
        exact h.text_ok c hc
      seen := fun c hc => (hown c).2.2.2.2 (h.seen c hc)
      used := by
        intro c hc
        rw [(hown c).2.2.1]
        exact h.used c hc }

/-- A memory behind a scan. -/
structure Scanned (m m' : ToolMemory) (order blocks : List ℕ) : Prop extends
    Sound m' order blocks where
  limits : m'.overLimit ↔ m.overLimit
  bounds : m'.entryLimit = m.entryLimit ∧ m'.byteLimit = m.byteLimit
  same : held m' order = held m order
  clock_le : m.scanClock ≤ m'.scanClock

theorem Scanned.trans {m₁ m₂ : ToolMemory} (h₁ : Scanned m m₁ order blocks)
    (h₂ : Scanned m₁ m₂ order blocks) : Scanned m m₂ order blocks :=
  { h₂ with
    limits := h₂.limits.trans h₁.limits
    bounds := ⟨h₂.bounds.1.trans h₁.bounds.1, h₂.bounds.2.trans h₁.bounds.2⟩
    same := h₂.same.trans h₁.same
    clock_le := h₁.clock_le.trans h₂.clock_le }

theorem mark_scanned (h : Sound m order blocks) (hscan : scan ≤ m.scanClock) (b : ℕ) :
    Scanned m (m.mark b scan) order blocks :=
  { mark_sound h hscan b with
    limits := Iff.rfl
    bounds := ⟨rfl, rfl⟩
    same := by
      apply List.map_congr_left
      intro a _
      exact congrArg (Prod.mk _) (mark_text m b scan _)
    clock_le := le_refl _ }

theorem measureWalk_scanned (ts : List Bytes) : ∀ (m : ToolMemory) (acc : ℕ × ℕ),
    Sound m order blocks → scan ≤ m.scanClock →
    Scanned m (measureWalk scan m ts acc).1 order blocks := by
  induction ts with
  | nil => exact fun m acc h _ => ⟨h, Iff.rfl, ⟨rfl, rfl⟩, rfl, le_refl _⟩
  | cons t ts ih =>
    intro m acc h hscan
    rw [measureWalk]
    cases m.findBlock t with
    | none => exact ih m acc h hscan
    | some b =>
      simp only
      split_ifs
      · exact ih m acc h hscan
      · have hmark := mark_scanned h hscan b
        cases ((m.mark b scan).block b).entries.foldl ((m.mark b scan).measureEntry b)
            (some acc) with
        | none => exact hmark
        | some acc => exact hmark.trans (ih _ acc hmark.toSound hscan)

theorem writeWalk_scanned (ts : List Bytes) : ∀ (m : ToolMemory) (out : Bytes),
    Sound m order blocks → scan ≤ m.scanClock →
    Scanned m (writeWalk scan m ts out).1 order blocks := by
  induction ts with
  | nil => exact fun m out h _ => ⟨h, Iff.rfl, ⟨rfl, rfl⟩, rfl, le_refl _⟩
  | cons t ts ih =>
    intro m out h hscan
    rw [writeWalk]
    cases m.findBlock t with
    | none => exact ih m out h hscan
    | some b =>
      simp only
      split_ifs
      · exact ih m out h hscan
      · have hmark := mark_scanned h hscan b
        exact hmark.trans (ih _ _ hmark.toSound hscan)

/-- A new scan. -/
theorem tick_scanned (h : Sound m order blocks) :
    Scanned m { m with scanClock := m.scanClock + 1 } order blocks :=
  { h with
    seen := fun b hb => (h.seen b hb).trans (Nat.le_succ _)
    limits := Iff.rfl
    bounds := ⟨rfl, rfl⟩
    same := rfl
    clock_le := Nat.le_succ _ }

theorem measure_scanned (h : Sound m order blocks) (text : Bytes) :
    Scanned m (m.kvToolMapMeasure text).1 order blocks := by
  have htick := tick_scanned h
  exact htick.trans (measureWalk_scanned _ _ _ htick.toSound (le_refl _))

theorem write_scanned (h : Sound m order blocks) (text : Bytes) :
    Scanned m (m.kvToolMapWrite text).1 order blocks := by
  unfold kvToolMapWrite
  split_ifs
  · exact ⟨h, Iff.rfl, ⟨rfl, rfl⟩, rfl, le_refl _⟩
  · have hmeasure := measure_scanned h text
    generalize m.kvToolMapMeasure text = r at hmeasure
    obtain ⟨m₁, n⟩ := r
    cases n with
    | none => exact hmeasure
    | some n =>
      simp only
      split_ifs
      · exact hmeasure
      · have htick := tick_scanned hmeasure.toSound
        exact hmeasure.trans (htick.trans (writeWalk_scanned _ _ _ htick.toSound (le_refl _)))

end Scans

section Runs
variable {m : ToolMemory} {kept : List (Bytes × Bytes)} {touches : List Bytes}

/-- A memory that holds what a store by recency holds, the ids touched last. -/
structure Follows (entryLimit byteLimit : ℕ) (m : ToolMemory) (kept : List (Bytes × Bytes))
    (touches : List Bytes) : Prop where
  holds : Holds m kept
  limits : m.entryLimit = entryLimit ∧ m.byteLimit = byteLimit
  touched : Recent.LastTouched touches kept

variable {entryLimit byteLimit : ℕ}

theorem putAll_follows (h : Follows entryLimit byteLimit m kept touches) (source : Source)
    (rs : List (Bytes × Bytes)) :
    Follows entryLimit byteLimit (putAll source m rs)
      (rs.foldl (recentPut entryLimit byteLimit) kept) (touches ++ putIds rs) := by
  obtain ⟨hheld, hids, hbytes⟩ := putAll_held source rs m kept h.holds
  rw [h.limits.1, h.limits.2] at hheld
  exact ⟨hheld, ⟨hids.trans h.limits.1, hbytes.trans h.limits.2⟩,
    recentPuts_touched _ _ rs _ _ h.touched⟩

theorem use_follows (h : Follows entryLimit byteLimit m kept touches) (id : Bytes) :
    Follows entryLimit byteLimit ((m.findEntry id).elim m m.touch) (Recent.use id kept)
      (touches ++ if (m.findEntry id).isSome then [id] else []) := by
  obtain ⟨hheld, hkey⟩ := touchId_held h.holds id
  refine ⟨hheld, ?_, ?_⟩
  · cases m.findEntry id with
    | none => exact h.limits
    | some a => exact h.limits
  · split_ifs with hsome
    · exact h.touched.use (hkey.1 hsome)
    · rw [Recent.use_absent fun hmem => hsome (hkey.2 hmem), List.append_nil]
      exact h.touched

/-- Every operation does to the memory what it does to a store by recency. -/
theorem step_follows (h : Follows entryLimit byteLimit m kept touches) (op : MemoryOp) :
    Follows entryLimit byteLimit (memoryStep m op) (recentStep entryLimit byteLimit kept op)
      (touches ++ touchedIds m op) := by
  cases op with
  | put id dsml source => exact putAll_follows h source [(id, dsml)]
  | lookup id =>
    have hstep : memoryStep m (.lookup id) = (m.findEntry (cstr id)).elim m m.touch := by
      show (m.lookup (cstr id)).2 = _
      unfold lookup
      cases m.findEntry (cstr id) <;> rfl
    rw [hstep]
    exact use_follows h (cstr id)
  | touch id =>
    have hstep : memoryStep m (.touch id) = (m.findEntry (cstr id)).elim m m.touch := by
      show touchId m id = _
      unfold touchId
      cases m.findEntry (cstr id) <;> rfl
    rw [hstep]
    exact use_follows h (cstr id)
  | remember ids rawDsml =>
    show Follows _ _ (m.remember ids rawDsml) _ _
    rw [remember_puts]
    exact putAll_follows h .ram _
  | load wanted s =>
    show Follows _ _ (m.kvToolMapLoad wanted s).1 _ _
    rw [load_puts, touchedIds, recentStep, h.limits.1]
    exact putAll_follows h .disk _
  | save text =>
    obtain ⟨⟨order, blocks, hs, hkept⟩, hunder⟩ := h.holds
    have hscan := write_scanned hs text
    rw [touchedIds, List.append_nil]
    refine ⟨⟨⟨order, blocks, hscan.toSound, ?_⟩, fun hover => hunder (hscan.limits.1 hover)⟩,
      ?_, h.touched⟩
    · rw [← hkept]
      exact hscan.same
    · exact ⟨hscan.bounds.1.trans h.limits.1, hscan.bounds.2.trans h.limits.2⟩
  | prune =>
    obtain ⟨order, blocks, hs, hkept⟩ := h.holds.sound
    have hpruned := prune_held hs
    rw [hkept, h.limits.1, h.limits.2] at hpruned
    obtain ⟨hids, hbytes⟩ := pruneLoop_limits (m.entries + 1) m
    rw [touchedIds, List.append_nil]
    exact ⟨hpruned, ⟨hids.trans h.limits.1, hbytes.trans h.limits.2⟩, h.touched.trim _⟩

theorem run_follows (ops : List MemoryOp) :
    ∀ (m : ToolMemory) (kept : List (Bytes × Bytes)) (touches : List Bytes),
    Follows entryLimit byteLimit m kept touches →
    Follows entryLimit byteLimit (ops.foldl memoryStep m)
      (ops.foldl (recentStep entryLimit byteLimit) kept) (touches ++ runTouches m ops) := by
  induction ops with
  | nil =>
    intro m kept touches h
    rw [runTouches, List.append_nil]
    exact h
  | cons op ops ih =>
    intro m kept touches h
    have hrest := ih _ _ _ (step_follows h op)
    rwa [List.append_assoc] at hrest

/-- After any operations the indexes, the list and the blocks hold the same entries, the counters
are right and the limits hold. The list is what a store by recency holds after the operations, and
its ids are those touched last: every entry that went was touched before all that are left. -/
theorem memoryRun_valid (maxEntries : ℤ) (maxBytes : ℕ) (ops : List MemoryOp) :
    (∃ order blocks, Sound (memoryRun maxEntries maxBytes ops) order blocks ∧
      held (memoryRun maxEntries maxBytes ops) order =
        recentRun (ToolMemory.empty maxEntries maxBytes).entryLimit
          (ToolMemory.empty maxEntries maxBytes).byteLimit ops ∧
      entryIds (memoryRun maxEntries maxBytes ops) order <+:
        (runTouches (ToolMemory.empty maxEntries maxBytes) ops).dedup.reverse) ∧
      ¬ (memoryRun maxEntries maxBytes ops).overLimit := by
  have hempty : Holds (ToolMemory.empty maxEntries maxBytes) [] :=
    ⟨⟨[], [], empty_sound _ _, rfl⟩, empty_not_over (empty_sound _ _)⟩
  obtain ⟨⟨⟨order, blocks, hs, hkept⟩, hunder⟩, -, htouched⟩ :=
    run_follows ops _ _ [] ⟨hempty, ⟨rfl, rfl⟩, Recent.lastTouched_nil⟩
  refine ⟨⟨order, blocks, hs, hkept, ?_⟩, hunder⟩
  rwa [Recent.LastTouched, ← hkept, keys_held] at htouched

end Runs

end Ds4.Memory
