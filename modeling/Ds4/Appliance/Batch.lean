import Ds4.Appliance.SessionTable

/-! One batch of the appliance: assignment of its slots, prefill, decode and commit. The
positions of all requests are counted from those of the first. -/
namespace Ds4.Appliance

structure ServerOptions where
  slots : ℕ
  position : UInt64
  decodeSteps : ℕ
  decodeSteps_lt : decodeSteps < 2 ^ 31 := by norm_num

theorem oneStep_lt : 1 < 2 ^ 31 := by norm_num

/-- One call of `run_token_major_serving_loop`: a single step at one position for the active
slots. -/
structure ServingCall where
  position : UInt64
  inputTokens : List UInt32
  activeSlots : List Bool
  mtpRawRows : List UInt32

structure ServingResult where
  selectedTokens : List UInt32
  mtpRawRows : List UInt32

/-- The runtime: what the n-th call returns, `none` where it fails or, in a decode step, has
no output head. -/
abbrev Runtime := ℕ → ServingCall → Option ServingResult

def HttpParsedRequest.assigned (req : HttpParsedRequest) (a : SessionAssignment) :
    HttpParsedRequest :=
  { req with
    cacheSlot := a.slot
    cacheHit := a.hit
    cachePromptMatch := a.promptMatch
    cacheEvicted := a.evicted
    evictedKey := a.evictedKey
    cachePosition := a.posIn }

/-- The assignments of a batch in order; none where a request gets no slot. -/
def assignBatch (basePos : UInt64) :
    List HttpParsedRequest → SessionTable → List Held → SessionTable × Option (List Held)
  | [], t, held => (t, some held)
  | req :: reqs, t, held =>
      let r := t.assign req basePos (protectedSlots t.slots.length held)
      match r.1.slot with
      | none => (r.2, none)
      | some _ => assignBatch basePos reqs r.2 (held ++ [(req.assigned r.1, r.1)])

def decodeInputToken (t : SessionTable) (e : Held) : UInt32 :=
  match e.2.slot with
  | none => e.1.promptTokenIds.getLastD 0
  | some i =>
      if e.2.hit && (t.slot i).lastSelectedToken != 0xffffffff then (t.slot i).lastSelectedToken
      else if e.1.promptTokenIds ≠ [] then e.1.promptTokenIds.getLastD 0
      else (t.slot i).promptTokenIds.getLastD 0

/-- The prefill steps of a request: a hit needs none, a miss all but the last prompt token. -/
def prefillSteps (e : Held) : ℕ :=
  if !e.2.hit && 1 < e.1.promptTokenIds.length then e.1.promptTokenIds.length - 1 else 0

def maxPrefillSteps (held : List Held) : ℕ := (held.map prefillSteps).foldl max 0

def inPrefill (opt : ServerOptions) (step : ℕ) (e : Held) : Bool :=
  !e.2.hit && (e.1.cacheSlot.any fun i => i < opt.slots) && step + 1 < e.1.promptTokenIds.length

/-- The vector of a value for each slot that one of the requests holds. -/
def bySlot {α : Type} (opt : ServerOptions) (default : α) (held : List Held) (value : Held → α) :
    List α :=
  (List.range opt.slots).map fun i =>
    ((held.reverse.find? fun e => e.1.cacheSlot == some i).map value).getD default

def countPrefill (opt : ServerOptions) (step : ℕ) (e : Held) : Held :=
  if inPrefill opt step e then
    ({ e.1 with promptPrefillTokens := e.1.promptPrefillTokens + 1 }, e.2)
  else e

/-- What a batch has done so far. -/
structure BatchRun where
  held : List Held
  mtpRawRows : List UInt32
  inputTokens : List UInt32
  prefillCalls : List ServingCall := []
  decodeCalls : List ServingCall := []
  failed : Bool := false

namespace BatchRun

def calls (b : BatchRun) : ℕ := b.prefillCalls.length + b.decodeCalls.length

def prefillStep (opt : ServerOptions) (runtime : Runtime) (firstPosition : UInt64) (step : ℕ)
    (b : BatchRun) : BatchRun :=
  let prefilling := b.held.filter (inPrefill opt step)
  if prefilling = [] then b
  else
    let call : ServingCall :=
      { position := firstPosition + UInt64.ofNat step
        inputTokens := bySlot opt 0 prefilling fun e => e.1.promptTokenIds.getD step 0
        activeSlots := bySlot opt false prefilling fun _ => true
        mtpRawRows := b.mtpRawRows }
    let b' := { b with held := b.held.map (countPrefill opt step),
                       prefillCalls := b.prefillCalls ++ [call] }
    match runtime b.calls call with
    | none => { b' with failed := true }
    | some r => { b' with mtpRawRows := r.mtpRawRows }

/-- The prefill loop from `step` on, with `n` steps to go. -/
def prefill (opt : ServerOptions) (runtime : Runtime) (firstPosition : UInt64) :
    ℕ → ℕ → BatchRun → BatchRun
  | 0, _, b => b
  | n + 1, step, b =>
      let b := b.prefillStep opt runtime firstPosition step
      if b.failed then b else prefill opt runtime firstPosition n (step + 1) b

def addToken (tokens : List UInt32) (e : Held) : Held :=
  match e.1.cacheSlot with
  | none => e
  | some i =>
      if i < tokens.length then
        ({ e.1 with generatedTokenIds := e.1.generatedTokenIds ++ [tokens.getD i 0] }, e.2)
      else e

def decodeStep (opt : ServerOptions) (runtime : Runtime) (position : UInt64) (b : BatchRun) :
    BatchRun :=
  let call : ServingCall :=
    { position
      inputTokens := b.inputTokens
      activeSlots := bySlot opt false b.held fun _ => true
      mtpRawRows := b.mtpRawRows }
  let b' := { b with decodeCalls := b.decodeCalls ++ [call] }
  match runtime b.calls call with
  | none => { b' with failed := true }
  | some r =>
      if r.selectedTokens.length < opt.slots then { b' with failed := true }
      else
        { b' with
          held := b.held.map (addToken r.selectedTokens)
          mtpRawRows := r.mtpRawRows
          inputTokens := (List.range b.inputTokens.length).map fun i =>
            if b.held.any fun e => e.1.cacheSlot == some i then r.selectedTokens.getD i 0
            else b.inputTokens.getD i 0 }

/-- The decode loop from `step` on, with `n` steps to go. -/
def decode (opt : ServerOptions) (runtime : Runtime) (firstPosition : UInt64) (prefill : ℕ) :
    ℕ → ℕ → BatchRun → BatchRun
  | 0, _, b => b
  | n + 1, step, b =>
      let b := b.decodeStep opt runtime
        (firstPosition + UInt64.ofNat prefill + UInt64.ofNat step)
      if b.failed then b else decode opt runtime firstPosition prefill n (step + 1) b

end BatchRun

def SessionTable.setMtpRawRows (t : SessionTable) (cacheSlot : Option ℕ)
    (mtpRawRows : List UInt32) : SessionTable :=
  match cacheSlot with
  | none => t
  | some i =>
      let slot := { t.slot i with mtpRawRows := mtpRawRows.getD i (t.slot i).mtpRawRows }
      { t with slots := t.slots.set i slot }

/-- The commits of a batch that went through. -/
def commitBatch (steps : ℕ) (mtpRawRows : List UInt32) :
    List Held → SessionTable → SessionTable
  | [], t => t
  | e :: held, t =>
      let requestPromptTokens : UInt64 :=
        if e.1.promptTokenIds = [] then 1 else UInt64.ofNat e.1.promptTokenIds.length
      let t := t.commit e.2 (if e.2.hit then 0 else requestPromptTokens) (UInt64.ofNat steps)
        (e.1.promptPrefillTokens + UInt64.ofNat steps) e.1.generatedTokenIds
      commitBatch steps mtpRawRows held (t.setMtpRawRows e.1.cacheSlot mtpRawRows)

/-- A batch that got its slots: the requests as admitted, the table as assigned, the run, and
the table behind it. -/
structure Execution where
  first : HttpParsedRequest
  batch : List HttpParsedRequest
  assigned : SessionTable
  held : List Held
  run : BatchRun
  table : SessionTable

def executeBatch (opt : ServerOptions) (runtime : Runtime) (t : SessionTable)
    (first : HttpParsedRequest) (batch : List HttpParsedRequest) :
    SessionTable × Option Execution :=
  match assignBatch opt.position batch t [] with
  | (t, none) => (t, none)
  | (assigned, some held) =>
      let start : BatchRun :=
        { held
          mtpRawRows := bySlot opt 0 held fun e =>
            ((e.2.slot.map fun i => (assigned.slot i).mtpRawRows).getD 0)
          inputTokens := bySlot opt 0 held (decodeInputToken assigned) }
      let prefill := maxPrefillSteps held
      let run := start.prefill opt runtime first.cachePosition prefill 0
      let run :=
        if run.failed then run
        else run.decode opt runtime first.cachePosition prefill first.requestedTokens 0
      let table :=
        if run.failed then assigned
        else commitBatch first.requestedTokens run.mtpRawRows run.held assigned
      (table, some { first, batch, assigned, held, run, table })

section Assignment
variable {basePos : UInt64} {t t' : SessionTable} {reqs : List HttpParsedRequest}
  {held held' : List Held}

theorem assigned_cacheKey (req : HttpParsedRequest) (a : SessionAssignment) :
    (req.assigned a).cacheKey = req.cacheKey := rfl

theorem assignBatch_length (basePos : UInt64) (reqs : List HttpParsedRequest) (t : SessionTable)
    (held : List Held) :
    (assignBatch basePos reqs t held).1.slots.length = t.slots.length := by
  induction reqs generalizing t held with
  | nil => rfl
  | cons req reqs ih =>
    have hassign := assigned t req basePos (protectedSlots t.slots.length held)
    simp only [assignBatch]
    split
    · exact hassign.length_eq
    · rw [ih, hassign.length_eq]

/-- A batch that got its slots: all requests in order, in different slots. -/
theorem assignBatch_spec (h : assignBatch basePos reqs t held = (t', some held'))
    (hinv : BatchInv t held) (hkeys : reqs.Pairwise fun r r' => r.cacheKey ≠ r'.cacheKey)
    (hheld : ∀ e ∈ held, ∀ r ∈ reqs, e.1.cacheKey ≠ r.cacheKey) :
    BatchInv t' held' ∧ ∃ as : List SessionAssignment, as.length = reqs.length ∧
      held' = held ++ (reqs.zip as).map fun e => (e.1.assigned e.2, e.2) := by
  induction reqs generalizing t held with
  | nil =>
    obtain ⟨rfl, hh⟩ := Prod.mk.inj h
    obtain rfl := Option.some.inj hh
    exact ⟨hinv, [], rfl, by simp⟩
  | cons req reqs ih =>
    have hassign := assigned t req basePos (protectedSlots t.slots.length held)
    simp only [assignBatch] at h
    generalize t.assign req basePos (protectedSlots t.slots.length held) = r at hassign h
    obtain ⟨a, t₁⟩ := r
    dsimp only at hassign h
    rw [List.pairwise_cons] at hkeys
    cases hslot : a.slot with
    | none => simp [hslot] at h
    | some i =>
      rw [hslot] at h
      have hnew : ∀ e ∈ held, e.1.cacheKey ≠ req.cacheKey := fun e he =>
        hheld e he req List.mem_cons_self
      have hinv' := hinv.extend hassign hnew hslot (assigned_cacheKey req a)
      have hheld' : ∀ e ∈ held ++ [(req.assigned a, a)], ∀ r ∈ reqs,
          e.1.cacheKey ≠ r.cacheKey := by
        intro e he r hr
        rcases List.mem_append.mp he with hm | hm
        · exact hheld e hm r (List.mem_cons_of_mem _ hr)
        · rw [List.mem_singleton.mp hm]
          exact hkeys.1 r hr
      obtain ⟨hfinal, as, hlen, hout⟩ := ih h hinv' hkeys.2 hheld'
      refine ⟨hfinal, a :: as, by simp [hlen], ?_⟩
      rw [hout, List.append_assoc]
      rfl

/-- The first request of a batch is given the position that its session stands at. -/
theorem assignBatch_head {req : HttpParsedRequest}
    (h : assignBatch basePos (req :: reqs) t [] = (t', some held')) :
    ∃ e, held'.head? = some e ∧ e.2.posIn = t.previewPosition req.cacheKey
      req.promptFingerprintPresent req.promptFingerprint basePos := by
  have hassign := assigned t req basePos (protectedSlots t.slots.length [])
  simp only [assignBatch] at h
  generalize t.assign req basePos (protectedSlots t.slots.length []) = r at hassign h
  obtain ⟨a, t₁⟩ := r
  dsimp only at hassign h
  cases hslot : a.slot with
  | none => simp [hslot] at h
  | some i =>
    rw [hslot] at h
    refine ⟨(req.assigned a, a), ?_, hassign.posIn_eq hslot⟩
    have key : ∀ {reqs : List HttpParsedRequest} {t held}, assignBatch basePos reqs t held
        = (t', some held') → ∃ more, held' = held ++ more := by
      intro reqs
      induction reqs with
      | nil =>
        intro t held h
        obtain ⟨-, hh⟩ := Prod.mk.inj h
        exact ⟨[], by simpa using (Option.some.inj hh).symm⟩
      | cons req reqs ih =>
        intro t held h
        simp only [assignBatch] at h
        split at h
        · cases h
        · obtain ⟨more, hmore⟩ := ih h
          exact ⟨_ :: more, by simpa using hmore⟩
    obtain ⟨more, hmore⟩ := key h
    simp [hmore]

end Assignment

end Ds4.Appliance
