import Ds4.Appliance.Positions

/-! What was checked when a request was admitted, and whether it still holds when the request is
executed. It does where no request drained from the pending ones was looked up in an older
table. -/
namespace Ds4.Appliance

section Lookup
variable {opt : ServerOptions} {t t' : SessionTable} {req : HttpParsedRequest}

/-- Valid slots stand behind the base position and within the context, and no two sessions have
one key. -/
structure TableInv (opt : ServerOptions) (t : SessionTable) : Prop where
  valid : ∀ i, (t.slot i).kvValid = true →
    opt.position.toNat < (t.slot i).pos.toNat ∧ (t.slot i).pos.toNat ≤ 262144
  keys : ∀ i j, (t.slot i).occupied = true → (t.slot j).occupied = true →
    (t.slot i).key = (t.slot j).key → i = j

/-- The request's session is found valid, for its prompt, at `pos`. -/
def HitAt (t : SessionTable) (req : HttpParsedRequest) (pos : UInt64) : Prop :=
  ∃ i, t.find req.cacheKey = some i ∧ ((t.slot i).kvValid = true ∧ (t.slot i).hcValid = true) ∧
    slotPromptMatches (t.slot i) req.promptFingerprintPresent req.promptFingerprint = true ∧
    (t.slot i).pos = pos

/-- No slot under the request's key is valid for its prompt. -/
def NoHit (t : SessionTable) (req : HttpParsedRequest) : Prop :=
  ∀ i, (t.slot i).occupied = true → (t.slot i).key = req.cacheKey →
    ¬ (((t.slot i).kvValid = true ∧ (t.slot i).hcValid = true) ∧
      slotPromptMatches (t.slot i) req.promptFingerprintPresent req.promptFingerprint = true)

theorem previewHit_some {pos : UInt64} : t.previewHit req.cacheKey req.promptFingerprintPresent
    req.promptFingerprint = some pos ↔ HitAt t req pos := by
  unfold SessionTable.previewHit HitAt
  cases hfind : t.find req.cacheKey with
  | none => simp
  | some i =>
    simp only [Bool.and_eq_true, Option.some.injEq, exists_eq_left']
    split_ifs with hhit
    · simp only [Option.some.injEq, hhit, true_and, and_self]
    · simp only [false_iff]
      exact fun h => hhit ⟨h.1, h.2.1⟩

theorem TableInv.noHit (h : TableInv opt t) (hnone : t.previewHit req.cacheKey
    req.promptFingerprintPresent req.promptFingerprint = none) : NoHit t req := by
  intro i hocc hkey hvalid
  have hfind := find_of_occupied hocc hkey
  obtain ⟨j, hj⟩ := Option.ne_none_iff_exists'.mp hfind
  obtain ⟨-, hoccj, hkeyj⟩ := find_some hj
  obtain rfl := h.keys i j hocc hoccj (hkey.trans hkeyj.symm)
  have := previewHit_some.mpr ⟨i, hj, hvalid.1, hvalid.2, rfl⟩
  simp [hnone] at this

variable {basePos : UInt64} {prot : List Bool} {a : SessionAssignment} {req' : HttpParsedRequest}

/-- A hit is given its slot's position, and leaves the other sessions' hits alone. -/
theorem Assigned.of_hit {pos : UInt64} (h : Assigned t req basePos prot a t')
    (hhit : HitAt t req pos) : a.hit = true ∧ a.posIn = pos ∧
      ∀ req' : HttpParsedRequest, ∀ pos', HitAt t req' pos' → HitAt t' req' pos' := by
  obtain ⟨i, hfind, hvalid, hmatch, hpos⟩ := hhit
  cases h with
  | refuse hnone => simp [hnone] at hfind
  | claim hnone => simp [hnone] at hfind
  | restart hfind' hmiss =>
    obtain rfl := Option.some.inj (hfind.symm.trans hfind')
    exact absurd ⟨hvalid, hmatch⟩ hmiss
  | hit hfind' _ _ ha hslots =>
    obtain rfl := Option.some.inj (hfind.symm.trans hfind')
    have hi := (find_some hfind).1
    refine ⟨ha.2.1, ha.2.2.trans hpos, ?_⟩
    rintro req' pos' ⟨j, hj, hvalidj, hmatchj, hposj⟩
    have hslot : ∀ k, (t'.slot k).occupied = (t.slot k).occupied ∧
        (t'.slot k).key = (t.slot k).key ∧ (t'.slot k).kvValid = (t.slot k).kvValid ∧
        (t'.slot k).hcValid = (t.slot k).hcValid ∧ (t'.slot k).pos = (t.slot k).pos ∧
        slotPromptMatches (t'.slot k) = slotPromptMatches (t.slot k) := by
      intro k
      rw [slot_of_set hi hslots]
      split_ifs with hk
      · subst hk
        exact ⟨rfl, rfl, rfl, rfl, rfl, rfl⟩
      · exact ⟨rfl, rfl, rfl, rfl, rfl, rfl⟩
    refine ⟨j, ?_, ?_⟩
    · obtain ⟨hlt, hp, hfirst⟩ := List.findIdx?_eq_some_iff_getElem.mp hj
      have hget : ∀ k (hk : k < t.slots.length), ∃ hk' : k < t'.slots.length,
          ((t'.slots[k]).occupied && (t'.slots[k]).key == req'.cacheKey)
            = ((t.slots[k]).occupied && (t.slots[k]).key == req'.cacheKey) := by
        intro k hk
        have hk' : k < t'.slots.length := by rwa [hslots, List.length_set]
        have hs := hslot k
        simp only [SessionTable.slot, List.getD_eq_getElem?_getD, List.getElem?_eq_getElem hk,
          List.getElem?_eq_getElem hk', Option.getD_some] at hs
        exact ⟨hk', by rw [hs.1, hs.2.1]⟩
      refine List.findIdx?_eq_some_iff_getElem.mpr ⟨(hget j hlt).1, (hget j hlt).2.trans hp, ?_⟩
      intro k hk
      obtain ⟨hk', heq⟩ := hget k (hk.trans hlt)
      rw [heq]
      exact hfirst k hk
    · obtain ⟨-, -, h1, h2, h3, h4⟩ := hslot j
      rw [h1, h2, h3, h4]
      exact ⟨hvalidj, hmatchj, hposj⟩

/-- A miss is given the base position, and makes no hit for another session. -/
theorem Assigned.of_noHit (h : Assigned t req basePos prot a t') (hnone : NoHit t req) {i : ℕ}
    (hi : a.slot = some i) : a.hit = false ∧ a.posIn = basePos ∧
      ∀ req' : HttpParsedRequest, req.cacheKey ≠ req'.cacheKey → NoHit t req' → NoHit t' req' := by
  have hlt := h.slot_lt hi
  obtain ⟨slot, hslots, hocc, hkey, -⟩ := h.slots_eq hi
  refine ⟨?_, ?_, ?_⟩
  · cases h with
    | refuse => rfl
    | hit hfind hvalid hmatch =>
      obtain ⟨-, hocc', hkey'⟩ := find_some hfind
      exact absurd ⟨hvalid, hmatch⟩ (hnone _ hocc' hkey')
    | restart _ _ ha => exact ha.2.1
    | claim _ _ _ ha => exact ha.2.1
  · cases h with
    | refuse => cases hi
    | hit hfind hvalid hmatch =>
      obtain ⟨-, hocc', hkey'⟩ := find_some hfind
      exact absurd ⟨hvalid, hmatch⟩ (hnone _ hocc' hkey')
    | restart _ _ ha => exact ha.2.2
    | claim _ _ _ ha => exact ha.2.2
  · intro req' hne hnone' j hoccj hkeyj
    rw [slot_of_set hlt hslots] at hoccj hkeyj ⊢
    split_ifs at hoccj hkeyj ⊢ with hj
    · exact absurd (hkey.symm.trans hkeyj) hne
    · exact hnone' j hoccj hkeyj

/-- An assignment keeps the table's invariant: it makes no slot valid and no key double. -/
theorem TableInv.assign (hinv : TableInv opt t) (h : Assigned t req basePos prot a t') :
    TableInv opt t' := by
  refine ⟨fun j hj => ?_, OneSlotPerKey.assign hinv.keys h⟩
  cases hslot : a.slot with
  | none =>
    have hsame : t'.slot j = t.slot j := by simp [SessionTable.slot, h.refused hslot]
    rw [hsame] at hj ⊢
    exact hinv.valid j hj
  | some i =>
    have hlt := h.slot_lt hslot
    obtain ⟨slot, hslots, -⟩ := h.slots_eq hslot
    by_cases hji : j = i
    · subst hji
      cases h with
      | refuse => cases hslot
      | hit hfind hvalid _ ha hset =>
        obtain rfl := Option.some.inj (ha.1.symm.trans hslot)
        rw [slot_of_set hlt hset, if_pos rfl]
        exact hinv.valid _ hvalid.1
      | restart _ _ ha hset =>
        obtain rfl := Option.some.inj (ha.1.symm.trans hslot)
        rw [slot_of_set hlt hset, if_pos rfl] at hj
        cases hj
      | claim _ _ _ ha hset =>
        obtain rfl := Option.some.inj (ha.1.symm.trans hslot)
        rw [slot_of_set hlt hset, if_pos rfl] at hj
        cases hj
    · rw [slot_of_set hlt hslots, if_neg hji] at hj ⊢
      exact hinv.valid j hj

end Lookup

section Batch
variable {opt : ServerOptions} {t t' : SessionTable} {reqs : List HttpParsedRequest}
  {held held' : List Held} {basePos : UInt64}

theorem TableInv.assignBatch (basePos : UInt64) (reqs : List HttpParsedRequest) (held : List Held)
    (h : TableInv opt t) :
    TableInv opt (assignBatch basePos reqs t held).1 := by
  induction reqs generalizing t held with
  | nil => exact h
  | cons req reqs ih =>
    have hassign := assigned t req basePos (protectedSlots t.slots.length held)
    simp only [Appliance.assignBatch]
    split
    · exact h.assign hassign
    · exact ih _ (h.assign hassign)

/-- A batch of hits at one position is assigned that position. -/
theorem assignBatch_hits {pos : UInt64} (h : assignBatch basePos reqs t held = (t', some held'))
    (hall : ∀ r ∈ reqs, HitAt t r pos) :
    ∀ e ∈ held', e ∈ held ∨ (e.2.hit = true ∧ e.2.posIn = pos) := by
  induction reqs generalizing t held with
  | nil =>
    obtain ⟨-, hh⟩ := Prod.mk.inj h
    obtain rfl := Option.some.inj hh
    exact fun e he => Or.inl he
  | cons req reqs ih =>
    have hassign := assigned t req basePos (protectedSlots t.slots.length held)
    simp only [Appliance.assignBatch] at h
    obtain ⟨hhit, hpos, hrest⟩ := hassign.of_hit (hall req List.mem_cons_self)
    split at h
    · cases h
    · intro e he
      rcases ih h (fun r hr => hrest r pos (hall r (List.mem_cons_of_mem _ hr))) e he with hm | hm
      · rcases List.mem_append.mp hm with hm | hm
        · exact Or.inl hm
        · rw [List.mem_singleton.mp hm]
          exact Or.inr ⟨hhit, hpos⟩
      · exact Or.inr hm

/-- A batch of misses is assigned the base position. -/
theorem assignBatch_misses (h : assignBatch basePos reqs t held = (t', some held'))
    (hkeys : DistinctKeys reqs) (hall : ∀ r ∈ reqs, NoHit t r) :
    ∀ e ∈ held', e ∈ held ∨ (e.2.hit = false ∧ e.2.posIn = basePos) := by
  induction reqs generalizing t held with
  | nil =>
    obtain ⟨-, hh⟩ := Prod.mk.inj h
    obtain rfl := Option.some.inj hh
    exact fun e he => Or.inl he
  | cons req reqs ih =>
    have hassign := assigned t req basePos (protectedSlots t.slots.length held)
    simp only [Appliance.assignBatch] at h
    rw [DistinctKeys, List.pairwise_cons] at hkeys
    split at h
    · cases h
    · rename_i i hslot
      obtain ⟨hmiss, hpos, hrest⟩ := hassign.of_noHit (hall req List.mem_cons_self) hslot
      intro e he
      rcases ih h hkeys.2 (fun r hr => hrest r (hkeys.1 r hr)
        (hall r (List.mem_cons_of_mem _ hr))) e he with hm | hm
      · rcases List.mem_append.mp hm with hm | hm
        · exact Or.inl hm
        · rw [List.mem_singleton.mp hm]
          exact Or.inr ⟨hmiss, hpos⟩
      · exact Or.inr hm

end Batch

section Record
variable {opt : ServerOptions} {t : SessionTable} {req : HttpParsedRequest}

/-- The prefill steps of a request that misses. -/
def missSteps (req : HttpParsedRequest) : ℕ :=
  if 1 < req.promptTokenIds.length then req.promptTokenIds.length - 1 else 0

theorem missSteps_le (req : HttpParsedRequest) : missSteps req ≤ 262143 := by
  have := req.promptTokenIds_le
  unfold missSteps
  split_ifs <;> omega

/-- What admission has left in a request: its position is behind the base for a hit and the
base for a miss, and it fits the context from there. -/
def Recorded (opt : ServerOptions) (req : HttpParsedRequest) : Prop :=
  0 < req.requestedTokens ∧ opt.position.toNat ≤ req.cachePosition.toNat ∧
    req.cachePosition.toNat + (if req.cachePosition = opt.position then missSteps req else 0) +
      req.requestedTokens ≤ 262144

/-- The base position leaves room for a batch below the largest 64-bit number. -/
def BaseFits (opt : ServerOptions) : Prop := opt.position.toNat + 2 ^ 32 ≤ 2 ^ 64

theorem preview_cases (req : HttpParsedRequest) (h : TableInv opt t) :
    (HitAt t req (req.preview t opt.position) ∧
      opt.position.toNat < (req.preview t opt.position).toNat ∧
      (req.preview t opt.position).toNat ≤ 262144) ∨
    (NoHit t req ∧ req.preview t opt.position = opt.position) := by
  unfold HttpParsedRequest.preview SessionTable.previewPosition
  cases hpre : t.previewHit req.cacheKey req.promptFingerprintPresent req.promptFingerprint with
  | none => exact Or.inr ⟨h.noHit hpre, rfl⟩
  | some pos =>
    have hhit := previewHit_some.mp hpre
    obtain ⟨i, -, hvalid, -, rfl⟩ := hhit
    exact Or.inl ⟨previewHit_some.mp hpre, h.valid i hvalid.1⟩

theorem toNat_add_ofNat {p : UInt64} {n : ℕ} (h : p.toNat + n < 2 ^ 64) :
    (p + UInt64.ofNat n).toNat = p.toNat + n := by
  rw [UInt64.toNat_add, UInt64.toNat_ofNat_of_lt' ((Nat.le_add_left n _).trans_lt h),
    Nat.mod_eq_of_lt h]

theorem ofNat_pred {n : ℕ} (h : 0 < n) (hn : n < 2 ^ 64) :
    UInt64.ofNat n - 1 = UInt64.ofNat (n - 1) := by
  obtain ⟨k, rfl⟩ : ∃ k, n = k + 1 := ⟨n - 1, by omega⟩
  rw [UInt64.ofNat_add, Nat.add_sub_cancel]
  exact add_sub_cancel_right _ _

/-- A request that is admitted fits the context from where its session stands. -/
theorem contextAdmission_ok (hbase : BaseFits opt) (h : TableInv opt t)
    (hok : (contextAdmission t req opt.position contextTokens).ok = true) :
    (req.preview t opt.position).toNat +
      (if req.preview t opt.position = opt.position then missSteps req else 0) +
        req.requestedTokens ≤ 262144 := by
  have hle := missSteps_le req
  have hlt := req.requestedTokens_lt
  have hctx : contextTokens.toNat = 262144 := rfl
  unfold BaseFits at hbase
  have hsum : ∀ (start : UInt64) (prefill : ℕ), start.toNat + 2 ^ 32 ≤ 2 ^ 64 → prefill ≤ 262143 →
      start + UInt64.ofNat prefill + UInt64.ofNat req.requestedTokens ≤ contextTokens →
      start.toNat + prefill + req.requestedTokens ≤ 262144 := by
    intro start prefill hstart hprefill hfits
    have h1 : (start + UInt64.ofNat prefill).toNat = start.toNat + prefill :=
      toNat_add_ofNat (by omega)
    rw [UInt64.le_iff_toNat_le, hctx, toNat_add_ofNat (by rw [h1]; omega), h1] at hfits
    exact hfits
  simp only [contextAdmission, decide_eq_true_eq] at hok
  cases hpre : t.previewHit req.cacheKey req.promptFingerprintPresent req.promptFingerprint with
  | none =>
    have hpreview : req.preview t opt.position = opt.position := by
      simp [HttpParsedRequest.preview, SessionTable.previewPosition, hpre]
    rw [hpreview, if_pos rfl]
    simp only [hpre, Option.getD_none, Option.isSome_none, Bool.not_false, Bool.true_and,
      decide_eq_true_eq] at hok
    refine hsum _ _ hbase hle ?_
    unfold missSteps
    split_ifs at hok ⊢ with hlen
    · rwa [ofNat_pred (by omega) (by have := req.promptTokenIds_le; omega)] at hok
    · exact hok
  | some pos =>
    have hpreview : req.preview t opt.position = pos := by
      simp [HttpParsedRequest.preview, SessionTable.previewPosition, hpre]
    obtain ⟨i, -, hvalid, -, hpos⟩ := previewHit_some.mp hpre
    have hpos' := h.valid i hvalid.1
    rw [hpos] at hpos'
    have hne : pos ≠ opt.position := by
      rintro rfl
      omega
    rw [hpreview, if_neg hne]
    simp only [hpre, Option.getD_some, Option.isSome_some, Bool.not_true, Bool.false_and,
      Bool.false_eq_true, ↓reduceIte] at hok
    exact hsum pos 0 (by omega) (by omega) hok

theorem AdmittedAt.recorded (hbase : BaseFits opt) (h : TableInv opt t)
    (hadm : AdmittedAt opt t req) :
    Recorded opt req ∧ req.preview t opt.position = req.cachePosition := by
  obtain ⟨⟨body, fallback, hfallback, serial, hreq⟩, hok⟩ := hadm
  have hpreview : req.preview t opt.position = req.cachePosition := by
    rw [hreq]
    rfl
  have hfits := contextAdmission_ok hbase h hok
  rw [hpreview] at hfits
  refine ⟨⟨?_, ?_, hfits⟩, hpreview⟩
  · rw [hreq]
    exact httpRequestedTokens_pos body fallback
  · rcases preview_cases req h with hc | hc
    · rw [← hpreview]
      exact hc.2.1.le
    · rw [← hpreview, hc.2]

end Record

section Turn
variable {opt : ServerOptions} {s : Server} {turn : Turn} {x : Execution}

/-- At execution every request of the batch stands where it was recorded at admission, and fits
the context from there. -/
def AdmissionHolds (x : Execution) : Prop :=
  ∀ p ∈ x.batch.zip x.held, ∀ i ∈ p.2.2.slot,
    (x.assigned.slot i).pos = p.1.cachePosition ∧
      p.1.cachePosition.toNat + prefillSteps p.2 + p.1.requestedTokens ≤ 262144

instance (x : Execution) : Decidable (AdmissionHolds x) :=
  inferInstanceAs (Decidable (∀ p ∈ x.batch.zip x.held, ∀ i ∈ p.2.2.slot, _))

/-- The sessions of the requests that the turn drains from the pending ones stand where they
were looked up. -/
def FreshPending (opt : ServerOptions) (s : Server) (turn : Turn) : Prop :=
  ∀ first ∈ (s.takeFirst opt turn).2,
    ∀ r ∈ ((s.takeFirst opt turn).1.drained opt first).1.tail,
      r.preview s.sessions opt.position = r.cachePosition

instance (opt : ServerOptions) (s : Server) (turn : Turn) : Decidable (FreshPending opt s turn) :=
  inferInstanceAs (Decidable (∀ first ∈ _, ∀ r ∈ _, _))

structure ServerInv (opt : ServerOptions) (s : Server) : Prop where
  table : TableInv opt s.sessions
  pending : ∀ r ∈ s.pending, Recorded opt r

variable {drained extras : List HttpParsedRequest}

/-- In a turn whose drained requests are fresh, the whole batch was recorded and looked up in
the table as it is. -/
theorem TurnBatch.batch_recorded (hb : TurnBatch opt s turn x drained extras)
    (hbase : BaseFits opt) (hinv : ServerInv opt s) (hfresh : FreshPending opt s turn) :
    ∀ r ∈ x.first :: (drained ++ extras), Recorded opt r ∧
      r.preview s.sessions opt.position = r.cachePosition ∧
      r.cachePosition = x.first.cachePosition := by
  intro r hr
  rcases List.mem_cons.mp hr with rfl | hr
  · obtain ⟨hrec, hpre⟩ := hb.gathered.admitted.recorded hbase hinv.table
    exact ⟨hrec, hpre, rfl⟩
  · have hpos := hb.gathered.position r hr
    rcases List.mem_append.mp hr with hd | he
    · refine ⟨hinv.pending r (hb.gathered.pending r hd), ?_, hpos⟩
      refine hfresh x.first hb.gathered.taken r ?_
      rwa [hb.gathered.matching]
    · obtain ⟨hrec, hpre⟩ := (hb.gathered.accepted r he).recorded hbase hinv.table
      exact ⟨hrec, hpre, hpos⟩

/-- The batch hits at one position behind the base, or misses at the base. -/
theorem TurnBatch.assigned_alike (hb : TurnBatch opt s turn x drained extras)
    (hbase : BaseFits opt) (hinv : ServerInv opt s) (hfresh : FreshPending opt s turn) :
    ∀ e ∈ x.held, e.2.posIn = x.first.cachePosition ∧
      (e.2.hit = false → x.first.cachePosition = opt.position) ∧
      (e.2.hit = true → x.first.cachePosition ≠ opt.position) := by
  have hrec := hb.batch_recorded hbase hinv hfresh
  have hassign := hb.executes.assigned_eq
  by_cases hpos : x.first.cachePosition = opt.position
  · have hmiss : ∀ r ∈ x.first :: (drained ++ extras), NoHit s.sessions r := by
      intro r hr
      obtain ⟨-, hpre, hfirst⟩ := hrec r hr
      rcases preview_cases r hinv.table with hc | hc
      · rw [hpre, hfirst, hpos] at hc
        exact absurd hc.2.1 (lt_irrefl _)
      · exact hc.1
    intro e he
    rcases assignBatch_misses hassign hb.gathered.keys hmiss e he with h | ⟨hhit, hin⟩
    · cases h
    · exact ⟨hin.trans hpos.symm, fun _ => hpos, fun h => by simp [hhit] at h⟩
  · have hhits : ∀ r ∈ x.first :: (drained ++ extras),
        HitAt s.sessions r x.first.cachePosition := by
      intro r hr
      obtain ⟨-, hpre, hfirst⟩ := hrec r hr
      rcases preview_cases r hinv.table with hc | hc
      · rw [← hfirst, ← hpre]
        exact hc.1
      · rw [hpre, hfirst] at hc
        exact absurd hc.2 hpos
    intro e he
    rcases assignBatch_hits hassign hhits e he with h | ⟨hhit, hin⟩
    · cases h
    · exact ⟨hin, fun h => by simp [hhit] at h, fun _ => hpos⟩

theorem prefillSteps_assigned (r : HttpParsedRequest) (a : SessionAssignment) :
    prefillSteps (r.assigned a, a) = if a.hit then 0 else missSteps r := by
  unfold prefillSteps missSteps
  cases a.hit with
  | true => simp
  | false =>
    by_cases h : 1 < r.promptTokenIds.length <;> simp [HttpParsedRequest.assigned, h]

theorem TurnBatch.holds (hb : TurnBatch opt s turn x drained extras)
    (hbase : BaseFits opt) (hinv : ServerInv opt s) (hfresh : FreshPending opt s turn) :
    (∀ p ∈ x.batch.zip x.held, p.2.2.posIn = p.1.cachePosition ∧
      opt.position.toNat ≤ p.2.2.posIn.toNat ∧ 0 < p.1.requestedTokens ∧
      p.1.requestedTokens = x.first.requestedTokens ∧
      p.2.2.posIn.toNat + prefillSteps p.2 + p.1.requestedTokens ≤ 262144) ∧
    x.batch.length = x.held.length := by
  obtain ⟨as, has, hheld⟩ := hb.requests
  have hrec := hb.batch_recorded hbase hinv hfresh
  have halike := hb.assigned_alike hbase hinv hfresh
  rw [hb.executes.batch_eq]
  refine ⟨fun p hp => ?_, by rw [hheld]; simp [has]⟩
  have hpe : p.2 = (p.1.assigned p.2.2, p.2.2) := by
    rw [hheld, List.zip_map_right] at hp
    obtain ⟨q, hq, rfl⟩ := List.mem_map.mp hp
    have : q.1 = q.2.1 := by
      have hsame : ∀ (l : List HttpParsedRequest) (as : List SessionAssignment),
          ∀ q ∈ l.zip (l.zip as), q.1 = q.2.1 := by
        intro l
        induction l with
        | nil => simp
        | cons r l ih =>
          intro as q hq
          cases as with
          | nil => simp at hq
          | cons a as =>
            rcases List.mem_cons.mp hq with rfl | hq
            · rfl
            · exact ih as q hq
      exact hsame _ _ q hq
    simp [this]
  obtain ⟨hr, he⟩ := List.of_mem_zip hp
  obtain ⟨⟨hpos, hle, hfits⟩, -, hfirst⟩ := hrec p.1 hr
  obtain ⟨hin, hmiss, hhit⟩ := halike p.2 he
  have hposIn : p.2.2.posIn = p.1.cachePosition := hin.trans hfirst.symm
  refine ⟨hposIn, hposIn ▸ hle, hpos, ?_, ?_⟩
  · rcases List.mem_cons.mp hr with heq | hr
    · rw [heq]
    · exact hb.gathered.tokens p.1 hr
  · rw [hposIn, hpe, prefillSteps_assigned]
    cases hh : p.2.2.hit with
    | true =>
      rw [if_neg (by rw [hfirst]; exact hhit hh)] at hfits
      exact hfits
    | false =>
      rw [if_pos (by rw [hfirst]; exact hmiss hh)] at hfits
      exact hfits

theorem TurnBatch.admissionHolds (hb : TurnBatch opt s turn x drained extras)
    (hbase : BaseFits opt) (hinv : ServerInv opt s) (hfresh : FreshPending opt s turn) :
    AdmissionHolds x := by
  intro p hp i hi
  obtain ⟨hposIn, -, -, -, hfits⟩ := (hb.holds hbase hinv hfresh).1 p hp
  obtain ⟨j, -, hj, -, -, hslot⟩ := hb.inv.holds p.2 (List.of_mem_zip hp).2
  obtain rfl : j = i := Option.some.inj (hj.symm.trans hi)
  exact ⟨hslot.trans hposIn, hposIn ▸ hfits⟩

/-- A fresh turn keeps the table's invariant: what it commits stands behind the base position
and within the context. -/
theorem TurnBatch.tableInv (hb : TurnBatch opt s turn x drained extras) (hbase : BaseFits opt)
    (hlen : s.sessions.slots.length = opt.slots) (hinv : ServerInv opt s)
    (hpending : ∀ r ∈ s.pending, ∃ t, AdmittedAt opt t r) (hfresh : FreshPending opt s turn) :
    TableInv opt x.table := by
  have hassigned : TableInv opt x.assigned := by
    have := hinv.table.assignBatch opt.position (x.first :: (drained ++ extras)) []
    rwa [hb.executes.assigned_eq] at this
  rw [hb.executes.table_eq]
  split_ifs with hfail
  · exact hassigned
  · obtain ⟨g, hheld, hran⟩ := hb.executes.ran (Or.inr (by simpa using hfail))
    have hlength := assignBatch_length opt.position (x.first :: (drained ++ extras)) s.sessions []
    rw [hb.executes.assigned_eq, hlen] at hlength
    have hin := hb.inSlots.map hran
    rw [← hheld, ← hlength] at hin
    have hc := commitBatch_spec x.first.requestedTokens x.run.mtpRawRows hin
    refine ⟨fun i hvalid => ?_, fun i j hi hj hij => ?_⟩
    · by_cases hi : ∀ e ∈ x.run.held, e.2.slot ≠ some i
      · rw [hc.other i hi] at hvalid ⊢
        exact hassigned.valid i hvalid
      · obtain ⟨e', he', hei⟩ : ∃ e' ∈ x.run.held, e'.2.slot = some i := by simpa using hi
        rw [hc.pos e' he' i hei]
        rw [hheld] at he'
        obtain ⟨e, he, rfl⟩ := List.mem_map.mp he'
        obtain ⟨hholds, hzip⟩ := hb.holds hbase hinv hfresh
        obtain ⟨r, hr⟩ : ∃ r, (r, e) ∈ x.batch.zip x.held := by
          obtain ⟨k, hk, rfl⟩ := List.mem_iff_getElem.mp he
          have hk' : k < x.batch.length := by omega
          exact ⟨x.batch[k], List.mem_iff_getElem.mpr ⟨k, by simp [hk, hk'], by simp⟩⟩
        obtain ⟨-, hle, hpos, htok, hfits⟩ := hholds (r, e) hr
        have hzero := hb.uncounted hpending e he
        have hlt := x.first.requestedTokens_lt
        have hmiss := prefillSteps_lt e
        dsimp only at hle hpos htok hfits
        rw [htok] at hfits hpos
        rw [hran.assignment e he, hran.counted e he, hzero, zero_add, ← add_assoc]
        have h1 : (e.2.posIn + UInt64.ofNat (prefillSteps e)).toNat
            = e.2.posIn.toNat + prefillSteps e := toNat_add_ofNat (by omega)
        rw [toNat_add_ofNat (by rw [h1]; omega), h1]
        omega
    · rw [(hc.key i).1] at hi
      rw [(hc.key j).1] at hj
      rw [(hc.key i).2, (hc.key j).2] at hij
      exact hassigned.keys i j hi hj hij

theorem ServerInv.init (opt : ServerOptions) : ServerInv opt (.init opt) := by
  have hslot : ∀ i, (Server.init opt).sessions.slot i = {} := by
    intro i
    simp only [Server.init, SessionTable.slot, SessionTable.init, List.getD_eq_getElem?_getD,
      List.getElem?_replicate]
    split_ifs <;> rfl
  refine ⟨⟨fun i h => ?_, fun i j h => ?_⟩, by simp [Server.init]⟩
  · rw [hslot] at h
    cases h
  · rw [hslot] at h
    cases h

theorem ServerRun.inv (hbase : BaseFits opt) (h : ServerRun opt (FreshPending opt) s) :
    ServerInv opt s := by
  induction h with
  | init => exact ServerInv.init opt
  | @turn s turn hrun hfresh ih =>
    obtain ⟨hlen, hpending⟩ := hrun.basic
    have hwait : ∀ r, r ∈ s.pending ∨ AdmittedAt opt s.sessions r → Recorded opt r :=
      fun r hr => hr.elim (ih.pending r) fun h => (h.recorded hbase ih.table).1
    cases hx : (s.turn opt turn).2 with
    | some x =>
      obtain ⟨drained, extras, hb⟩ := turnBatch hlen hx
      refine ⟨?_, fun r hr => hwait r (hb.pending r hr)⟩
      rw [hb.sessions]
      exact hb.tableInv hbase hlen ih hpending hfresh
    | none =>
      rcases turn_cases opt s turn with
        ⟨-, hsess, hpend⟩ | ⟨first, drained, extras, hg, hexec, hsess, hpend⟩
      · exact ⟨hsess ▸ ih.table, fun r hr => ih.pending r (hpend r hr)⟩
      · refine ⟨?_, fun r hr => hwait r (hpend r hr)⟩
        have hassigned := ih.table.assignBatch opt.position (first :: (drained ++ extras)) []
        rw [hexec] at hx
        rw [hsess]
        unfold executeBatch at hx ⊢
        split at hx
        · rename_i heq
          rw [heq] at hassigned
          exact hassigned
        · cases hx

/-- In a run whose drained requests are all fresh, what was checked at admission holds of every
request that is executed. -/
theorem admission_holds (hbase : BaseFits opt) (h : ServerRun opt (FreshPending opt) s)
    (hfresh : FreshPending opt s turn) (hx : (s.turn opt turn).2 = some x) : AdmissionHolds x := by
  obtain ⟨drained, extras, hb⟩ := turnBatch h.basic.1 hx
  exact hb.admissionHolds hbase (h.inv hbase) hfresh

theorem oneToken_le : [(1 : UInt32)].length ≤ 262144 := by simp

theorem twoTokens_le : [(1 : UInt32), 2].length ≤ 262144 := by simp

/-- A prompt that asks for two tokens. -/
def twoTokenBody (key : String) : HttpBody :=
  ⟨some 2, some key, none, [1, 2], none, by simp, twoTokens_le⟩

/-- Two requests that wait since they ask for another number of tokens. -/
def waitingTurn : Turn :=
  ⟨some (promptBody "a" [1] oneToken_le), [some (twoTokenBody "d"), some (twoTokenBody "e")],
    fiveRuntime⟩

def nextTurn : Turn := ⟨none, [], fiveRuntime⟩

theorem waitingTurn_holds :
    ∃ x, ((((Server.init twoSlots).turn twoSlots waitingTurn).1).turn twoSlots nextTurn).2 =
      some x ∧
      x.batch.length = 2 ∧ AdmissionHolds x := by
  have hx := Option.some_get (show ((((Server.init twoSlots).turn twoSlots waitingTurn).1).turn
    twoSlots nextTurn).2.isSome = true by decide)
  exact ⟨_, hx.symm, by decide, admission_holds (by unfold BaseFits; decide)
    (.turn waitingTurn .init (by decide)) (by decide) hx.symm⟩

def threeSlots : ServerOptions := { twoSlots with slots := 3 }

/-- Two sessions are served while a second request of each waits: one with another prompt,
one with the same. -/
def doubleTurn : Turn :=
  ⟨some (promptBody "a" [1] oneToken_le),
    [some (promptBody "b" [1] oneToken_le), some (promptBody "b" [9]),
      some (promptBody "a" [1] oneToken_le)], fun _ _ => some ⟨[5, 5, 5], [0, 0, 0]⟩⟩

/-- The waiting request of the first session was looked up before that session's run, and is
drained at the position recorded then. -/
theorem doubleTurn_stale : ¬ ∀ opt s turn x, BaseFits opt → ServerRun opt (fun _ _ => True) s →
    (s.turn opt turn).2 = some x → AdmissionHolds x := by
  intro h
  have hx := Option.some_get (show ((((Server.init threeSlots).turn threeSlots doubleTurn).1).turn
    threeSlots { nextTurn with runtime := doubleTurn.runtime }).2.isSome = true by decide)
  exact absurd (h threeSlots _ _ _ (by unfold BaseFits; decide) (.turn doubleTurn .init trivial)
    hx.symm) (by decide)

end Turn

end Ds4.Appliance
