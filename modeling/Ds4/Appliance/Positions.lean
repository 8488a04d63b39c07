import Ds4.Appliance.Server
import Mathlib.Data.UInt

/-! Where a batch decodes and where it is recorded. All requests of a batch are decoded behind
the first request's position and the longest prefill, but each is committed behind its own. -/
namespace Ds4.Appliance

section Run
variable {opt : ServerOptions} {runtime : Runtime} {firstPosition : UInt64}

/-- What the steps of a batch leave alone in a request, and what they count. -/
structure Ran (steps : Held → ℕ) (g : Held → Held) (held : List Held) : Prop where
  assignment : ∀ e ∈ held, (g e).2 = e.2
  tokens : ∀ e ∈ held, (g e).1.promptTokenIds = e.1.promptTokenIds
  slot : ∀ e ∈ held, (g e).1.cacheSlot = e.1.cacheSlot
  key : ∀ e ∈ held, (g e).1.cacheKey = e.1.cacheKey
  counted : ∀ e ∈ held, (g e).1.promptPrefillTokens =
    e.1.promptPrefillTokens + UInt64.ofNat (steps e)

/-- The slot recorded in a request is one that the runtime has. -/
def InRange (opt : ServerOptions) (held : List Held) : Prop :=
  ∀ e ∈ held, ∃ i < opt.slots, e.1.cacheSlot = some i

theorem inPrefill_iff {e : Held} (h : ∃ i < opt.slots, e.1.cacheSlot = some i) (step : ℕ) :
    inPrefill opt step e = true ↔ step < prefillSteps e := by
  obtain ⟨i, hi, hslot⟩ := h
  unfold inPrefill prefillSteps
  cases hhit : e.2.hit with
  | true => simp
  | false =>
    simp only [hslot, Option.any_some, hi, decide_true, Bool.not_false, Bool.true_and,
      Bool.and_true, decide_eq_true_eq]
    split_ifs <;> omega

theorem countPrefill_ran {held : List Held} (hrange : InRange opt held) (step : ℕ) :
    Ran (fun e => if step < prefillSteps e then 1 else 0) (countPrefill opt step) held := by
  refine ⟨?_, ?_, ?_, ?_, ?_⟩ <;> intro e he <;> unfold countPrefill
  · split_ifs <;> rfl
  · split_ifs <;> rfl
  · split_ifs <;> rfl
  · split_ifs <;> rfl
  · by_cases hin : inPrefill opt step e = true
    · rw [if_pos hin, if_pos ((inPrefill_iff (hrange e he) step).mp hin)]
      rfl
    · rw [if_neg hin, if_neg fun hlt => hin ((inPrefill_iff (hrange e he) step).mpr hlt)]
      simp

theorem Ran.comp {steps steps' total : Held → ℕ} {g g' : Held → Held} {held : List Held}
    (h : Ran steps g held) (h' : Ran steps' g' (held.map g))
    (htotal : ∀ e ∈ held, steps e + steps' (g e) = total e) : Ran total (g' ∘ g) held := by
  have hmem : ∀ e ∈ held, g e ∈ held.map g := fun e he => List.mem_map_of_mem he
  refine ⟨?_, ?_, ?_, ?_, ?_⟩ <;> intro e he <;> simp only [Function.comp_apply]
  · rw [h'.assignment _ (hmem e he), h.assignment e he]
  · rw [h'.tokens _ (hmem e he), h.tokens e he]
  · rw [h'.slot _ (hmem e he), h.slot e he]
  · rw [h'.key _ (hmem e he), h.key e he]
  · rw [h'.counted _ (hmem e he), h.counted e he, ← htotal e he, UInt64.ofNat_add, add_assoc]

theorem Ran.id (held : List Held) : Ran (fun _ => 0) id held :=
  ⟨fun _ _ => rfl, fun _ _ => rfl, fun _ _ => rfl, fun _ _ => rfl, fun e _ => by simp⟩

theorem Ran.prefillSteps_eq {steps : Held → ℕ} {g : Held → Held} {held : List Held}
    (h : Ran steps g held) {e : Held} (he : e ∈ held) : prefillSteps (g e) = prefillSteps e := by
  simp only [prefillSteps, h.assignment e he, h.tokens e he]

theorem Ran.inRange {steps : Held → ℕ} {g : Held → Held} {held : List Held}
    (h : Ran steps g held) (hrange : InRange opt held) : InRange opt (held.map g) := by
  intro e' he'
  obtain ⟨e, he, rfl⟩ := List.mem_map.mp he'
  rw [h.slot e he]
  exact hrange e he

theorem prefillStep_held (opt : ServerOptions) (runtime : Runtime) (firstPosition : UInt64)
    (b : BatchRun) (step : ℕ) :
    (b.prefillStep opt runtime firstPosition step).held = b.held.map (countPrefill opt step) ∧
      (b.prefillStep opt runtime firstPosition step).decodeCalls = b.decodeCalls := by
  unfold BatchRun.prefillStep
  dsimp only
  split_ifs with hnone
  · have hid : ∀ e ∈ b.held, countPrefill opt step e = e := by
      intro e he
      have := List.filter_eq_nil_iff.mp hnone e he
      simp [countPrefill, this]
    refine ⟨?_, rfl⟩
    conv_lhs => rw [← List.map_id b.held]
    exact List.map_congr_left fun e he => (hid e he).symm
  · split <;> exact ⟨rfl, rfl⟩

/-- A prefill that goes through has counted each request's own steps. -/
theorem prefill_spec (runtime : Runtime) (firstPosition : UInt64) (n step : ℕ) (b : BatchRun)
    (hrange : InRange opt b.held) :
    (b.prefill opt runtime firstPosition n step).decodeCalls = b.decodeCalls ∧
    ((b.prefill opt runtime firstPosition n step).failed = false →
      ∃ g, (b.prefill opt runtime firstPosition n step).held = b.held.map g ∧
        Ran (fun e => min n (prefillSteps e - step)) g b.held) := by
  induction n generalizing step b with
  | zero =>
    refine ⟨rfl, fun _ => ⟨id, by simp [BatchRun.prefill], ?_⟩⟩
    simpa using Ran.id b.held
  | succ n ih =>
    simp only [BatchRun.prefill]
    obtain ⟨hheld, hcalls⟩ := prefillStep_held opt runtime firstPosition b step
    split_ifs with hfail
    · exact ⟨hcalls, fun h => absurd (h.symm.trans hfail) (by simp)⟩
    · have hran := countPrefill_ran hrange step
      have hrange' := hran.inRange hrange
      rw [← hheld] at hrange'
      obtain ⟨hcalls', hrest⟩ := ih (step + 1) _ hrange'
      refine ⟨hcalls'.trans hcalls, fun h => ?_⟩
      obtain ⟨g, hg, hrang⟩ := hrest h
      rw [hheld] at hg hrang
      refine ⟨g ∘ countPrefill opt step, by rw [hg, List.map_map], hran.comp hrang ?_⟩
      intro e he
      rw [hran.prefillSteps_eq he]
      split_ifs <;> omega

theorem addToken_ran (tokens : List UInt32) (held : List Held) :
    Ran (fun _ => 0) (BatchRun.addToken tokens) held := by
  have key : ∀ e : Held, (BatchRun.addToken tokens e).2 = e.2 ∧
      (BatchRun.addToken tokens e).1.promptTokenIds = e.1.promptTokenIds ∧
      (BatchRun.addToken tokens e).1.cacheSlot = e.1.cacheSlot ∧
      (BatchRun.addToken tokens e).1.cacheKey = e.1.cacheKey ∧
      (BatchRun.addToken tokens e).1.promptPrefillTokens = e.1.promptPrefillTokens := by
    intro e
    unfold BatchRun.addToken
    split
    · simp
    · split_ifs <;> simp
  exact ⟨fun e _ => (key e).1, fun e _ => (key e).2.1, fun e _ => (key e).2.2.1,
    fun e _ => (key e).2.2.2.1, fun e _ => by simp [(key e).2.2.2.2]⟩

theorem decodeStep_spec (opt : ServerOptions) (runtime : Runtime) (b : BatchRun)
    (position : UInt64) : (∃ call : ServingCall, call.position = position ∧
      (b.decodeStep opt runtime position).decodeCalls = b.decodeCalls ++ [call]) ∧
    ∃ g, (b.decodeStep opt runtime position).held = b.held.map g ∧ Ran (fun _ => 0) g b.held := by
  unfold BatchRun.decodeStep
  dsimp only
  split
  · exact ⟨⟨_, rfl, rfl⟩, id, by simp, Ran.id _⟩
  · split_ifs
    · exact ⟨⟨_, rfl, rfl⟩, id, by simp, Ran.id _⟩
    · exact ⟨⟨_, rfl, rfl⟩, _, rfl, addToken_ran _ _⟩

/-- The decode calls follow the longest prefill, step by step, for all requests alike. -/
theorem decode_spec (opt : ServerOptions) (runtime : Runtime) (firstPosition : UInt64)
    (prefill n step : ℕ) (b : BatchRun) :
    (∃ m, ((b.decode opt runtime firstPosition prefill n step).decodeCalls.map
        ServingCall.position) = b.decodeCalls.map ServingCall.position ++
          (List.range m).map fun j =>
            firstPosition + UInt64.ofNat prefill + UInt64.ofNat (step + j)) ∧
    ∃ g, (b.decode opt runtime firstPosition prefill n step).held = b.held.map g ∧
      Ran (fun _ => 0) g b.held := by
  induction n generalizing step b with
  | zero => exact ⟨⟨0, by simp [BatchRun.decode]⟩, id, by simp [BatchRun.decode], Ran.id _⟩
  | succ n ih =>
    simp only [BatchRun.decode]
    obtain ⟨⟨call, hcall, hcalls⟩, g, hg, hran⟩ := decodeStep_spec opt
      runtime b (firstPosition + UInt64.ofNat prefill + UInt64.ofNat step)
    split_ifs with hfail
    · exact ⟨⟨1, by simp [hcalls, hcall]⟩, g, hg, hran⟩
    · obtain ⟨⟨m, hm⟩, g', hg', hran'⟩ := ih (step + 1)
        (b.decodeStep opt runtime (firstPosition + UInt64.ofNat prefill + UInt64.ofNat step))
      rw [hg] at hg' hran'
      refine ⟨⟨m + 1, ?_⟩, g' ∘ g, by rw [hg', List.map_map], hran.comp hran' (by simp)⟩
      rw [hm, hcalls, List.map_append, List.append_assoc, List.range_succ_eq_map]
      simp only [List.map_cons, List.map_nil, List.map_map, hcall, List.singleton_append,
        Nat.add_zero]
      congr 2
      refine List.map_congr_left fun j _ => ?_
      simp only [Function.comp_apply, Nat.succ_eq_add_one,
        show step + 1 + j = step + (j + 1) by omega]

end Run

section Commit
variable {t : SessionTable} {held : List Held} {steps : ℕ} {rows : List UInt32}

/-- The requests of a batch as the runtime sees them: in slots of their own. -/
structure InSlots (n : ℕ) (held : List Held) : Prop where
  distinct : held.Pairwise fun e e' => e.2.slot ≠ e'.2.slot
  slot : ∀ e ∈ held, ∃ i < n, e.2.slot = some i ∧ e.1.cacheSlot = some i

/-- A commit moves the slots of the batch behind their own prefill and decode, and touches no
other slot; keys stay. -/
structure Committed (steps : ℕ) (held : List Held) (t t' : SessionTable) : Prop where
  length : t'.slots.length = t.slots.length
  key : ∀ i, (t'.slot i).occupied = (t.slot i).occupied ∧ (t'.slot i).key = (t.slot i).key
  other : ∀ i, (∀ e ∈ held, e.2.slot ≠ some i) → t'.slot i = t.slot i
  pos : ∀ e ∈ held, ∀ i, e.2.slot = some i → (t'.slot i).pos =
    e.2.posIn + (e.1.promptPrefillTokens + UInt64.ofNat steps)

theorem commitBatch_spec (steps : ℕ) (rows : List UInt32) (h : InSlots t.slots.length held) :
    Committed steps held t (commitBatch steps rows held t) := by
  induction held generalizing t with
  | nil => exact ⟨rfl, fun _ => ⟨rfl, rfl⟩, fun _ _ => rfl, by simp⟩
  | cons e held ih =>
    obtain ⟨i, hi, hei, hci⟩ := h.slot e List.mem_cons_self
    have hdistinct := List.pairwise_cons.mp h.distinct
    simp only [commitBatch]
    generalize (if e.2.hit then 0 else if e.1.promptTokenIds = [] then (1 : UInt64)
      else UInt64.ofNat e.1.promptTokenIds.length) = prompt
    obtain ⟨slot, hslots, hkey, hpos⟩ : ∃ slot : SessionSlot,
        ((t.commit e.2 prompt (UInt64.ofNat steps) (e.1.promptPrefillTokens + UInt64.ofNat steps)
          e.1.generatedTokenIds).setMtpRawRows e.1.cacheSlot rows).slots = t.slots.set i slot ∧
        (slot.occupied = (t.slot i).occupied ∧ slot.key = (t.slot i).key) ∧
        slot.pos = e.2.posIn + (e.1.promptPrefillTokens + UInt64.ofNat steps) := by
      simp only [SessionTable.commit, hei, hi, ↓reduceIte, SessionTable.setMtpRawRows, hci,
        List.set_set]
      refine ⟨_, rfl, ?_, ?_⟩ <;> simp [SessionTable.slot, SessionSlot.commit, hi]
    generalize (t.commit e.2 prompt (UInt64.ofNat steps)
      (e.1.promptPrefillTokens + UInt64.ofNat steps) e.1.generatedTokenIds).setMtpRawRows
        e.1.cacheSlot rows = t₁ at hslots
    have hlen : t₁.slots.length = t.slots.length := by rw [hslots, List.length_set]
    have hother : ∀ e' ∈ held, e'.2.slot ≠ some i := fun e' he' heq =>
      hdistinct.1 e' he' (hei.trans heq.symm)
    have hrest := ih (t := t₁) ⟨hdistinct.2, fun e' he' => by
      simpa only [hlen] using h.slot e' (List.mem_cons_of_mem _ he')⟩
    refine ⟨hrest.length.trans hlen, fun j => ?_, fun j hj => ?_, ?_⟩
    · rw [(hrest.key j).1, (hrest.key j).2, slot_of_set hi hslots]
      split_ifs with hji
      · exact hji ▸ hkey
      · exact ⟨rfl, rfl⟩
    · rw [hrest.other j fun e' he' => hj e' (List.mem_cons_of_mem _ he'),
        slot_of_set hi hslots, if_neg]
      rintro rfl
      exact hj e List.mem_cons_self hei
    · intro e' he' j hej
      rcases List.mem_cons.mp he' with rfl | he'
      · obtain rfl : i = j := Option.some.inj (hei.symm.trans hej)
        rw [hrest.other i hother, slot_of_set hi hslots, if_pos rfl, hpos]
      · exact hrest.pos e' he' j hej

end Commit

section Execute
variable {opt : ServerOptions} {runtime : Runtime} {t : SessionTable}
  {first : HttpParsedRequest} {batch : List HttpParsedRequest} {x : Execution}

theorem le_foldl_max {l : List ℕ} {n b : ℕ} (h : n ∈ l ∨ n ≤ b) : n ≤ l.foldl max b := by
  induction l generalizing b with
  | nil => simpa using h
  | cons m l ih =>
    refine ih ?_
    rcases h with h | h
    · rcases List.mem_cons.mp h with rfl | h
      · exact Or.inr (le_max_right _ _)
      · exact Or.inl h
    · exact Or.inr (h.trans (le_max_left _ _))

theorem le_maxPrefillSteps {held : List Held} {e : Held} (he : e ∈ held) :
    prefillSteps e ≤ maxPrefillSteps held :=
  le_foldl_max (Or.inl (List.mem_map_of_mem he))

theorem maxPrefillSteps_le {held : List Held} {n : ℕ} (h : ∀ e ∈ held, prefillSteps e ≤ n) :
    maxPrefillSteps held ≤ n := by
  have key : ∀ (l : List ℕ) (b : ℕ), b ≤ n → (∀ m ∈ l, m ≤ n) → l.foldl max b ≤ n := by
    intro l
    induction l with
    | nil => exact fun b hb _ => hb
    | cons m l ih =>
      intro b hb hl
      exact ih _ (max_le hb (hl m List.mem_cons_self)) fun k hk => hl k (List.mem_cons_of_mem _ hk)
  refine key _ 0 (Nat.zero_le n) fun m hm => ?_
  obtain ⟨e, he, rfl⟩ := List.mem_map.mp hm
  exact h e he

/-- What an executed batch is: the slots it got, the calls it made, and the table behind it. -/
structure Executes (opt : ServerOptions) (t : SessionTable) (first : HttpParsedRequest)
    (batch : List HttpParsedRequest) (x : Execution) : Prop where
  first_eq : x.first = first
  batch_eq : x.batch = batch
  assigned_eq : assignBatch opt.position batch t [] = (x.assigned, some x.held)
  table_eq : x.table = if x.run.failed then x.assigned
    else commitBatch first.requestedTokens x.run.mtpRawRows x.run.held x.assigned
  calls : ∃ m, x.run.decodeCalls.map ServingCall.position = (List.range m).map fun k =>
    first.cachePosition + UInt64.ofNat (maxPrefillSteps x.held) + UInt64.ofNat k
  ran : x.run.decodeCalls ≠ [] ∨ x.run.failed = false →
    ∃ g, x.run.held = x.held.map g ∧ Ran prefillSteps g x.held

theorem executeBatch_spec (h : (executeBatch opt runtime t first batch).2 = some x)
    (hrange : ∀ t' held, assignBatch opt.position batch t [] = (t', some held) →
      InRange opt held) :
    Executes opt t first batch x ∧ (executeBatch opt runtime t first batch).1 = x.table := by
  unfold executeBatch at h ⊢
  cases hassign : assignBatch opt.position batch t [] with
  | mk t' held? =>
    cases held? with
    | none => simp [hassign] at h
    | some held =>
      simp only [hassign] at h ⊢
      obtain rfl := Option.some.inj h
      refine ⟨⟨rfl, rfl, hassign, rfl, ?_, ?_⟩, rfl⟩ <;> dsimp only
      all_goals
        generalize hstart : (BatchRun.mk held _ _ [] [] false) = start
        have hheld : start.held = held := by rw [← hstart]
        have hcalls : start.decodeCalls = [] := by rw [← hstart]
        have hpre := prefill_spec runtime first.cachePosition
          (maxPrefillSteps held) 0 start (by rw [hheld]; exact hrange t' held hassign)
        generalize start.prefill opt runtime first.cachePosition (maxPrefillSteps held) 0 = pre
          at hpre
        rw [hcalls, hheld] at hpre
      · split_ifs with hfail
        · exact ⟨0, by simp [hpre.1]⟩
        · obtain ⟨⟨m, hm⟩, -⟩ := decode_spec opt runtime
            first.cachePosition (maxPrefillSteps held) first.requestedTokens 0 pre
          exact ⟨m, by simpa [hpre.1] using hm⟩
      · split_ifs with hfail
        · intro h
          simp [hpre.1, hfail] at h
        · intro _
          obtain ⟨g, hg, hran⟩ := hpre.2 (by simpa using hfail)
          obtain ⟨-, g', hg', hran'⟩ := decode_spec opt runtime
            first.cachePosition (maxPrefillSteps held) first.requestedTokens 0 pre
          rw [hg] at hg' hran'
          refine ⟨g' ∘ g, by rw [hg', List.map_map], hran.comp hran' fun e he => ?_⟩
          have := le_maxPrefillSteps he
          simp only [Nat.sub_zero, Nat.add_zero]
          omega

end Execute

section Turn
variable {opt : ServerOptions} {Ok : Server → Turn → Prop} {s : Server} {turn : Turn}
  {x : Execution}

theorem inSlots_of_inv {t : SessionTable} {reqs : List HttpParsedRequest}
    {as : List SessionAssignment}
    (h : BatchInv t ((reqs.zip as).map fun e => (e.1.assigned e.2, e.2))) :
    InSlots t.slots.length ((reqs.zip as).map fun e => (e.1.assigned e.2, e.2)) := by
  refine ⟨h.distinct, fun e he => ?_⟩
  obtain ⟨i, hi, hei, -⟩ := h.holds e he
  obtain ⟨p, -, rfl⟩ := List.mem_map.mp he
  exact ⟨i, hi, hei, hei⟩

theorem InSlots.map {n : ℕ} {held : List Held} {steps : Held → ℕ} {g : Held → Held}
    (h : InSlots n held) (hg : Ran steps g held) : InSlots n (held.map g) := by
  refine ⟨?_, ?_⟩
  · rw [List.pairwise_map]
    refine h.distinct.imp_of_mem fun he he' hne => ?_
    rwa [hg.assignment _ he, hg.assignment _ he']
  · intro e' he'
    obtain ⟨e, he, rfl⟩ := List.mem_map.mp he'
    rw [hg.assignment e he, hg.slot e he]
    exact h.slot e he

/-- The batch of a turn, once it has its slots. -/
structure TurnBatch (opt : ServerOptions) (s : Server) (turn : Turn) (x : Execution)
    (drained extras : List HttpParsedRequest) : Prop where
  gathered : Gathered opt s turn x.first drained extras
  executes : Executes opt s.sessions x.first (x.first :: (drained ++ extras)) x
  inv : BatchInv x.assigned x.held
  inSlots : InSlots opt.slots x.held
  requests : ∃ as : List SessionAssignment, as.length = (drained ++ extras).length + 1 ∧
    x.held = ((x.first :: (drained ++ extras)).zip as).map fun e => (e.1.assigned e.2, e.2)
  sessions : (s.turn opt turn).1.sessions = x.table
  pending : ∀ r ∈ (s.turn opt turn).1.pending, r ∈ s.pending ∨ AdmittedAt opt s.sessions r

theorem turnBatch (hlen : s.sessions.slots.length = opt.slots)
    (hx : (s.turn opt turn).2 = some x) :
    ∃ drained extras, TurnBatch opt s turn x drained extras := by
  rcases turn_cases opt s turn with ⟨hnone, -⟩ | ⟨first, drained, extras, hg, hexec, hsess, hpend⟩
  · simp [hnone] at hx
  · rw [hexec] at hx
    have hspec : ∀ t' held, assignBatch opt.position (first :: (drained ++ extras)) s.sessions []
        = (t', some held) → BatchInv t' held ∧ InSlots opt.slots held ∧
          ∃ as : List SessionAssignment, as.length = (drained ++ extras).length + 1 ∧
            held = ((first :: (drained ++ extras)).zip as).map
              fun e => (e.1.assigned e.2, e.2) := by
      intro t' held hassign
      obtain ⟨hinv, as, has, rfl⟩ := assignBatch_spec hassign (BatchInv.nil _) hg.keys (by simp)
      have hlen' := assignBatch_length opt.position (first :: (drained ++ extras)) s.sessions []
      rw [hassign, hlen] at hlen'
      refine ⟨hinv, hlen' ▸ inSlots_of_inv hinv, as, by simpa using has, by simp⟩
    obtain ⟨hex, htable⟩ := executeBatch_spec hx fun t' held hassign e he => by
      obtain ⟨i, hi, -, hci⟩ := (hspec t' held hassign).2.1.slot e he
      exact ⟨i, hi, hci⟩
    obtain ⟨hinv, hin, has⟩ := hspec _ _ hex.assigned_eq
    obtain rfl := hex.first_eq
    exact ⟨drained, extras, hg, hex, hinv, hin, has, hsess.trans htable, hpend⟩

/-- In every reached server the table has one slot per runtime slot, and every waiting request
was read, looked up and checked in some table. -/
theorem ServerRun.basic (h : ServerRun opt Ok s) :
    s.sessions.slots.length = opt.slots ∧ ∀ r ∈ s.pending, ∃ t, AdmittedAt opt t r := by
  induction h with
  | init => exact ⟨by simp [Server.init, SessionTable.init], by simp [Server.init]⟩
  | @turn s turn _ _ ih =>
    obtain ⟨hlen, hpending⟩ := ih
    have hwait : ∀ r, r ∈ s.pending ∨ AdmittedAt opt s.sessions r → ∃ t, AdmittedAt opt t r :=
      fun r hr => hr.elim (hpending r) fun h => ⟨_, h⟩
    cases hx : (s.turn opt turn).2 with
    | some x =>
      obtain ⟨drained, extras, hb⟩ := turnBatch hlen hx
      refine ⟨?_, fun r hr => hwait r (hb.pending r hr)⟩
      have hassigned :=
        assignBatch_length opt.position (x.first :: (drained ++ extras)) s.sessions []
      rw [hb.executes.assigned_eq, hlen] at hassigned
      rw [hb.sessions, hb.executes.table_eq]
      split_ifs with hfail
      · exact hassigned
      · obtain ⟨g, hheld, hran⟩ := hb.executes.ran (Or.inr (by simpa using hfail))
        have hin := hb.inSlots.map hran
        rw [← hheld, ← hassigned] at hin
        rw [(commitBatch_spec _ _ hin).length, hassigned]
    | none =>
      rcases turn_cases opt s turn with
        ⟨-, hsess, hpend⟩ | ⟨first, drained, extras, hg, hexec, hsess, hpend⟩
      · exact ⟨hsess ▸ hlen, fun r hr => hpending r (hpend r hr)⟩
      · refine ⟨?_, fun r hr => hwait r (hpend r hr)⟩
        have hassigned :=
          assignBatch_length opt.position (first :: (drained ++ extras)) s.sessions []
        rw [hexec] at hx
        rw [hsess]
        unfold executeBatch at hx ⊢
        split at hx
        · rename_i heq
          rw [heq] at hassigned
          exact hassigned.trans hlen
        · cases hx

end Turn

section Agreement
variable {opt : ServerOptions} {Ok : Server → Turn → Prop} {s : Server} {turn : Turn}
  {x : Execution}

/-- The k-th decode step of each request runs k positions behind its own prefill. -/
def DecodedInPlace (x : Execution) : Prop :=
  ∀ e ∈ x.run.held, ∀ c ∈ x.run.decodeCalls.zipIdx,
    c.1.position = e.2.posIn + e.1.promptPrefillTokens + UInt64.ofNat c.2

instance (x : Execution) : Decidable (DecodedInPlace x) :=
  inferInstanceAs (Decidable (∀ e ∈ _, ∀ c ∈ _, _))

/-- A batch's commit records each request's slot behind its own prefill and decode. -/
def RecordedBehind (x : Execution) : Prop :=
  ∀ e ∈ x.run.held, ∀ i, e.2.slot = some i → (x.table.slot i).pos =
    e.2.posIn + e.1.promptPrefillTokens + UInt64.ofNat x.first.requestedTokens

/-- No request needs more prefill than the first, and all would begin to decode where the first
one does. -/
def StartTogether (held : List Held) : Prop :=
  ∀ e ∈ held, ∀ f ∈ held.head?, prefillSteps e ≤ prefillSteps f ∧
    e.2.posIn + UInt64.ofNat (prefillSteps e) = f.2.posIn + UInt64.ofNat (prefillSteps f)

instance (held : List Held) : Decidable (StartTogether held) :=
  inferInstanceAs (Decidable (∀ e ∈ held, ∀ f ∈ held.head?, _))

theorem prefillSteps_lt (e : Held) : prefillSteps e < 2 ^ 64 := by
  have := e.1.promptTokenIds_le
  unfold prefillSteps
  split_ifs <;> omega

theorem ofNat_inj_of_lt {m n : ℕ} (hm : m < 2 ^ 64) (hn : n < 2 ^ 64)
    (h : UInt64.ofNat m = UInt64.ofNat n) : m = n := by
  have := congrArg UInt64.toNat h
  rwa [UInt64.toNat_ofNat_of_lt' hm, UInt64.toNat_ofNat_of_lt' hn] at this

/-- In a batch of a reached server no prefill has been counted before. -/
theorem TurnBatch.uncounted {drained extras : List HttpParsedRequest}
    (hb : TurnBatch opt s turn x drained extras)
    (hpending : ∀ r ∈ s.pending, ∃ t, AdmittedAt opt t r) :
    ∀ e ∈ x.held, e.1.promptPrefillTokens = 0 := by
  have hadm : ∀ r ∈ x.first :: (drained ++ extras), ∃ t, AdmittedAt opt t r := by
    intro r hr
    rcases List.mem_cons.mp hr with rfl | hr
    · exact ⟨_, hb.gathered.admitted⟩
    · rcases List.mem_append.mp hr with hr | hr
      · exact hpending r (hb.gathered.pending r hr)
      · exact ⟨_, hb.gathered.accepted r hr⟩
  intro e he
  obtain ⟨as, -, hheld⟩ := hb.requests
  rw [hheld] at he
  obtain ⟨p, hp, rfl⟩ := List.mem_map.mp he
  obtain ⟨t, ⟨body, fallback, hfallback, serial, hreq⟩, -⟩ := hadm p.1 (List.of_mem_zip hp).1
  show (p.1.assigned p.2).promptPrefillTokens = 0
  rw [hreq]
  rfl

/-- The first request of a batch is given the position it was looked up at. -/
theorem TurnBatch.head {drained extras : List HttpParsedRequest}
    (hb : TurnBatch opt s turn x drained extras) :
    ∃ f, x.held.head? = some f ∧ f.2.posIn = x.first.cachePosition := by
  obtain ⟨f, hf, hpos⟩ := assignBatch_head hb.executes.assigned_eq
  obtain ⟨⟨body, fallback, hfallback, serial, hreq⟩, -⟩ := hb.gathered.admitted
  refine ⟨f, hf, hpos.trans ?_⟩
  rw [hreq]
  rfl

/-- A batch of a reached server that comes to decode is decoded in place exactly if its
requests start together; where it goes through, each slot is recorded behind its own prefill
and decode. -/
theorem decodedInPlace_iff (h : ServerRun opt (fun _ _ => True) s)
    (hx : (s.turn opt turn).2 = some x) (hdecode : x.run.decodeCalls ≠ []) :
    (DecodedInPlace x ↔ StartTogether x.held) ∧ (x.run.failed = false → RecordedBehind x) := by
  obtain ⟨hlen, hpending⟩ := h.basic
  obtain ⟨drained, extras, hb⟩ := turnBatch hlen hx
  have hzero := hb.uncounted hpending
  obtain ⟨f, hf, hfpos⟩ := hb.head
  obtain ⟨g, hheld, hran⟩ := hb.executes.ran (Or.inl hdecode)
  obtain ⟨m, hcalls⟩ := hb.executes.calls
  have hm : 0 < m := by
    refine Nat.pos_of_ne_zero fun h0 => hdecode ?_
    rw [h0, List.range_zero, List.map_nil, List.map_eq_nil_iff] at hcalls
    exact hcalls
  have hcall : ∀ k < m, ∃ c ∈ x.run.decodeCalls.zipIdx, c.2 = k := by
    intro k hk
    have hklt : k < x.run.decodeCalls.length := by
      have := congrArg List.length hcalls
      simp only [List.length_map, List.length_range] at this
      omega
    exact ⟨(x.run.decodeCalls[k], k), List.mem_zipIdx_iff_getElem?.mpr (by simp [hklt]), rfl⟩
  have hposition : ∀ c ∈ x.run.decodeCalls.zipIdx, c.2 < m ∧ c.1.position =
      x.first.cachePosition + UInt64.ofNat (maxPrefillSteps x.held) + UInt64.ofNat c.2 := by
    intro c hc
    have hget := List.mem_zipIdx_iff_getElem?.mp hc
    have hmap := congrArg (fun l => l[c.2]?) hcalls
    simp only [List.getElem?_map, hget, Option.map_some] at hmap
    have hlt : c.2 < m := by
      by_contra hge
      simp [hge] at hmap
    exact ⟨hlt, by simpa [List.getElem?_range, hlt] using hmap⟩
  -- in terms of the batch as it was assigned, and without the step's own offset
  have hstart : DecodedInPlace x ↔ ∀ e ∈ x.held, x.first.cachePosition +
      UInt64.ofNat (maxPrefillSteps x.held) = e.2.posIn + UInt64.ofNat (prefillSteps e) := by
    unfold DecodedInPlace
    rw [hheld]
    constructor
    · intro hplace e he
      obtain ⟨c, hc, hck⟩ := hcall 0 hm
      have := hplace (g e) (List.mem_map_of_mem he) c hc
      rw [(hposition c hc).2, hran.assignment e he, hran.counted e he, hzero e he] at this
      simpa using this
    · intro hplace e' he' c hc
      obtain ⟨e, he, rfl⟩ := List.mem_map.mp he'
      rw [(hposition c hc).2, hplace e he, hran.assignment e he, hran.counted e he, hzero e he,
        zero_add]
  have hfmem : f ∈ x.held := List.mem_of_mem_head? hf
  refine ⟨hstart.trans ⟨fun hplace e he f' hf' => ?_, fun htogether e he => ?_⟩, ?_⟩
  · obtain rfl : f = f' := Option.some.inj (hf.symm.trans hf')
    have hmax : maxPrefillSteps x.held = prefillSteps f := by
      have := hplace f hfmem
      rw [hfpos] at this
      refine ofNat_inj_of_lt ?_ (prefillSteps_lt f) (add_left_cancel this)
      refine (maxPrefillSteps_le fun e' _ => Nat.le_of_lt_succ ?_).trans_lt
        (show 2 ^ 64 - 1 < 2 ^ 64 by norm_num)
      exact (prefillSteps_lt e').trans_le (by norm_num)
    exact ⟨hmax ▸ le_maxPrefillSteps he, (hplace e he).symm.trans (hplace f hfmem)⟩
  · have hmax : maxPrefillSteps x.held = prefillSteps f :=
      le_antisymm (maxPrefillSteps_le fun e' he' => (htogether e' he' f hf).1)
        (le_maxPrefillSteps hfmem)
    rw [hmax, ← hfpos, (htogether e he f hf).2]
  · intro hok e he i hei
    have hassigned := assignBatch_length opt.position (x.first :: (drained ++ extras)) s.sessions []
    rw [hb.executes.assigned_eq, hlen] at hassigned
    have hin := hb.inSlots.map hran
    rw [← hheld, ← hassigned] at hin
    have hcommitted := commitBatch_spec x.first.requestedTokens
      x.run.mtpRawRows hin
    rw [hb.executes.table_eq, hok, if_neg (by simp), hcommitted.pos e he i hei, add_assoc]

/-- A prompt of one session. -/
def promptBody (key : String) (tokens : List UInt32) (h : tokens.length ≤ 262144 := by simp) :
    HttpBody :=
  ⟨some 1, some key, none, tokens, none, by simp, h⟩

def twoSlots : ServerOptions where
  slots := 2
  position := 0
  decodeSteps := 1
  decodeSteps_lt := oneStep_lt

/-- A runtime that always selects the token 5. -/
def fiveRuntime : Runtime := fun _ _ => some ⟨[5, 5], [0, 0]⟩

/-- Two new sessions whose prompts have the same length. -/
def equalTurn : Turn := ⟨some (promptBody "a" [1, 2]), [some (promptBody "b" [3, 4])], fiveRuntime⟩

theorem equalTurn_inPlace : ∃ x, ((Server.init twoSlots).turn twoSlots equalTurn).2 = some x ∧
    DecodedInPlace x ∧ RecordedBehind x := by
  have hx := Option.some_get
    (show ((Server.init twoSlots).turn twoSlots equalTurn).2.isSome = true by decide)
  have hin := decodedInPlace_iff (.init) hx.symm (by decide)
  exact ⟨_, hx.symm, hin.1.mpr (by decide), hin.2 (by decide)⟩

/-- Two new sessions whose prompts have one token and three tokens. -/
def unequalTurn : Turn :=
  ⟨some (promptBody "a" [1]), [some (promptBody "b" [1, 2, 3])], fiveRuntime⟩

/-- The short prompt is decoded at position 2, behind the long one's prefill. -/
theorem unequalTurn_shifted : ¬ ∀ opt s turn x, ServerRun opt (fun _ _ => True) s →
    (s.turn opt turn).2 = some x → DecodedInPlace x := by
  intro h
  have hx := Option.some_get
    (show ((Server.init twoSlots).turn twoSlots unequalTurn).2.isSome = true by decide)
  exact absurd (h twoSlots _ unequalTurn _ .init hx.symm) (by decide)

end Agreement

end Ds4.Appliance
