import Ds4.Appliance.Batch

/-! The appliance's serving loop: admission of a first request, the batch gathered around it,
and the requests that wait for a later batch. -/
namespace Ds4.Appliance

/-- The context capacity that admission is checked against. -/
def contextTokens : UInt64 := 262144

def httpRequestedTokens (body : HttpBody) (fallback : ℕ) : ℕ :=
  let out := body.maxTokens.getD fallback
  let out := if out = 0 then fallback else out
  if out = 0 then 1 else out

theorem httpRequestedTokens_pos (body : HttpBody) (fallback : ℕ) :
    0 < httpRequestedTokens body fallback := by
  unfold httpRequestedTokens
  dsimp only
  split_ifs <;> omega

theorem httpRequestedTokens_lt (body : HttpBody) {fallback : ℕ} (h : fallback < 2 ^ 31) :
    httpRequestedTokens body fallback < 2 ^ 31 := by
  have hmax : body.maxTokens.getD fallback < 2 ^ 31 := by
    cases hn : body.maxTokens with
    | none => exact h
    | some n => exact (body.maxTokens_le n (by simp [hn])).trans_lt (by norm_num)
  unfold httpRequestedTokens
  dsimp only
  split_ifs <;> omega

def httpRequestCacheKey (body : HttpBody) (requestSerial : ℕ) : String :=
  match body.sessionKey with
  | some key => key
  | none => body.promptKey.getD ("ephemeral:" ++ toString requestSerial)

def fnv1a64U32 (tokens : List UInt32) : UInt64 :=
  tokens.foldl (fun h token =>
    [0, 8, 16, 24].foldl (fun (h : UInt64) i =>
      (h ^^^ ((token >>> i) &&& 0xff).toUInt64) * 1099511628211) h) 1469598103934665603

/-- `http_request_prompt_fingerprint`. -/
def promptFingerprint (body : HttpBody) : Option UInt64 :=
  if body.promptTokens ≠ [] then some (fnv1a64U32 body.promptTokens) else body.promptHash

/-- A request that has been read, with its session looked up in the table as it is now. -/
def prepareRequest (opt : ServerOptions) (t : SessionTable) (body : HttpBody)
    (fallback : ℕ) (hfallback : fallback < 2 ^ 31) (requestSerial : ℕ) : HttpParsedRequest where
  body := body
  requestedTokens := httpRequestedTokens body fallback
  requestedTokens_lt := httpRequestedTokens_lt body hfallback
  cacheKey := httpRequestCacheKey body requestSerial
  promptFingerprintPresent := (promptFingerprint body).isSome
  promptFingerprint := (promptFingerprint body).getD 0
  promptTokenIds := body.promptTokens
  promptTokenIds_le := body.promptTokens_le
  cachePosition := t.previewPosition (httpRequestCacheKey body requestSerial)
    (promptFingerprint body).isSome ((promptFingerprint body).getD 0) opt.position

def HttpParsedRequest.preview (req : HttpParsedRequest) (t : SessionTable) (basePos : UInt64) :
    UInt64 :=
  t.previewPosition req.cacheKey req.promptFingerprintPresent req.promptFingerprint basePos

/-- `http_drain_matching_pending`: the batch and what stays pending. -/
def drainMatchingPending (requestedTokens : ℕ) (cachePosition : UInt64) (maxBatch : ℕ) :
    List HttpParsedRequest → List HttpParsedRequest →
    List HttpParsedRequest × List HttpParsedRequest
  | [], batch => (batch, [])
  | req :: pending, batch =>
      if batch.length < maxBatch ∧ req.requestedTokens = requestedTokens ∧
          req.cachePosition = cachePosition ∧ ∀ r ∈ batch, r.cacheKey ≠ req.cacheKey then
        drainMatchingPending requestedTokens cachePosition maxBatch pending (batch ++ [req])
      else
        let r := drainMatchingPending requestedTokens cachePosition maxBatch pending batch
        (r.1, req :: r.2)

structure Server where
  sessions : SessionTable
  pending : List HttpParsedRequest
  served : ℕ

def Server.init (opt : ServerOptions) : Server := ⟨.init opt.slots, [], 0⟩

/-- The connections accepted while a batch is gathered; `none` is one that brings no
generation request. -/
def coalesce (opt : ServerOptions) (t : SessionTable) (first : HttpParsedRequest) :
    List (Option HttpBody) → ℕ → List HttpParsedRequest → List HttpParsedRequest →
    ℕ × List HttpParsedRequest × List HttpParsedRequest
  | [], served, pending, batch => (served, pending, batch)
  | extra :: extras, served, pending, batch =>
      if batch.length < opt.slots then
        match extra with
        | none => coalesce opt t first extras (served + 1) pending batch
        | some body =>
            let req := prepareRequest opt t body first.requestedTokens
              first.requestedTokens_lt (served + 1 + pending.length)
            if !(contextAdmission t req opt.position contextTokens).ok then
              coalesce opt t first extras (served + 1) pending batch
            else if req.requestedTokens ≠ first.requestedTokens ∨
                req.cachePosition ≠ first.cachePosition ∨
                ∃ r ∈ batch, r.cacheKey = req.cacheKey then
              coalesce opt t first extras (served + 1) (pending ++ [req]) batch
            else coalesce opt t first extras (served + 1) pending (batch ++ [req])
      else (served, pending, batch)

/-- What one turn of the loop meets: the connection taken when nothing is pending, the ones
accepted while the batch is gathered, and the runtime. -/
structure Turn where
  arrival : Option HttpBody
  extras : List (Option HttpBody)
  runtime : Runtime

/-- The first request of a turn, as read and looked up, with the server behind it. -/
def Server.takeFirst (opt : ServerOptions) (s : Server) (turn : Turn) :
    Server × Option HttpParsedRequest :=
  match s.pending with
  | req :: pending =>
      ({ s with pending },
        some (prepareRequest opt s.sessions req.body opt.decodeSteps opt.decodeSteps_lt
          (s.served + pending.length)))
  | [] =>
      ({ s with served := s.served + 1 },
        turn.arrival.map fun body =>
          prepareRequest opt s.sessions body opt.decodeSteps opt.decodeSteps_lt (s.served + 1))

/-- The requests that the first request of a turn takes from those pending. -/
def Server.drained (opt : ServerOptions) (s : Server) (first : HttpParsedRequest) :
    List HttpParsedRequest × List HttpParsedRequest :=
  drainMatchingPending first.requestedTokens first.cachePosition opt.slots s.pending [first]

def Server.turn (opt : ServerOptions) (s : Server) (turn : Turn) : Server × Option Execution :=
  match s.takeFirst opt turn with
  | (s, none) => (s, none)
  | (s, some first) =>
      if !(contextAdmission s.sessions first opt.position contextTokens).ok then (s, none)
      else
        let drained := s.drained opt first
        let gathered := coalesce opt s.sessions first turn.extras s.served drained.2 drained.1
        let r := executeBatch opt turn.runtime s.sessions first gathered.2.2
        (⟨r.1, gathered.2.1, gathered.1⟩, r.2)

/-- The servers reached by turns that meet `Ok`. -/
inductive ServerRun (opt : ServerOptions) (Ok : Server → Turn → Prop) : Server → Prop
  | init : ServerRun opt Ok (.init opt)
  | turn {s} (turn : Turn) : ServerRun opt Ok s → Ok s turn →
      ServerRun opt Ok (s.turn opt turn).1

section Gather
variable {opt : ServerOptions}

/-- A request that was read and looked up in some table, and passed the check against it. -/
def AdmittedAt (opt : ServerOptions) (t : SessionTable) (req : HttpParsedRequest) : Prop :=
  (∃ body fallback hfallback serial,
    req = prepareRequest opt t body fallback hfallback serial) ∧
    (contextAdmission t req opt.position contextTokens).ok = true

abbrev DistinctKeys (reqs : List HttpParsedRequest) : Prop :=
  reqs.Pairwise fun r r' => r.cacheKey ≠ r'.cacheKey

theorem distinctKeys_snoc {batch : List HttpParsedRequest} {req : HttpParsedRequest}
    (h : DistinctKeys batch) (hnew : ∀ r ∈ batch, r.cacheKey ≠ req.cacheKey) :
    DistinctKeys (batch ++ [req]) := by
  refine List.pairwise_append.mpr ⟨h, List.pairwise_singleton _ _, ?_⟩
  intro r hr r' hr'
  rw [List.mem_singleton.mp hr']
  exact hnew r hr

/-- A drain moves matching requests from the pending ones to the batch. -/
theorem drain_spec {requestedTokens maxBatch : ℕ} {cachePosition : UInt64}
    {pending batch batch' pending' : List HttpParsedRequest}
    (h : drainMatchingPending requestedTokens cachePosition maxBatch pending batch
      = (batch', pending')) :
    (∃ more, batch' = batch ++ more ∧ ∀ r ∈ more, r ∈ pending ∧
      r.requestedTokens = requestedTokens ∧ r.cachePosition = cachePosition) ∧
    (∀ r ∈ pending', r ∈ pending) ∧ (DistinctKeys batch → DistinctKeys batch') := by
  induction pending generalizing batch batch' pending' with
  | nil =>
    obtain ⟨rfl, rfl⟩ := Prod.mk.inj h
    exact ⟨⟨[], by simp⟩, by simp, fun h => h⟩
  | cons req pending ih =>
    simp only [drainMatchingPending] at h
    split_ifs at h with htake
    · obtain ⟨⟨more, rfl, hmore⟩, hpend, hkeys⟩ := ih h
      refine ⟨⟨req :: more, by simp, ?_⟩, fun r hr => List.mem_cons_of_mem _ (hpend r hr),
        fun hb => hkeys (distinctKeys_snoc hb htake.2.2.2)⟩
      intro r hr
      rcases List.mem_cons.mp hr with rfl | hr
      · exact ⟨List.mem_cons_self, htake.2.1, htake.2.2.1⟩
      · exact ⟨List.mem_cons_of_mem _ (hmore r hr).1, (hmore r hr).2⟩
    · obtain ⟨rfl, rfl⟩ := Prod.mk.inj h
      obtain ⟨⟨more, hbatch, hmore⟩, hpend, hkeys⟩ := ih rfl
      refine ⟨⟨more, hbatch, fun r hr => ⟨List.mem_cons_of_mem _ (hmore r hr).1, (hmore r hr).2⟩⟩,
        ?_, hkeys⟩
      intro r hr
      rcases List.mem_cons.mp hr with rfl | hr
      · exact List.mem_cons_self
      · exact List.mem_cons_of_mem _ (hpend r hr)

/-- The connections accepted while a batch is gathered are checked against the table as it is,
and join the batch or wait. -/
theorem coalesce_spec {t : SessionTable} {first : HttpParsedRequest}
    {extras : List (Option HttpBody)} {served served' : ℕ}
    {pending pending' batch batch' : List HttpParsedRequest}
    (h : coalesce opt t first extras served pending batch = (served', pending', batch')) :
    (∃ more, batch' = batch ++ more ∧ ∀ r ∈ more, AdmittedAt opt t r ∧
      r.requestedTokens = first.requestedTokens ∧ r.cachePosition = first.cachePosition) ∧
    (∀ r ∈ pending', r ∈ pending ∨ AdmittedAt opt t r) ∧
    (DistinctKeys batch → DistinctKeys batch') := by
  induction extras generalizing served pending batch with
  | nil =>
    simp only [coalesce, Prod.mk.injEq] at h
    obtain ⟨-, rfl, rfl⟩ := h
    exact ⟨⟨[], by simp⟩, fun r hr => Or.inl hr, fun h => h⟩
  | cons extra extras ih =>
    simp only [coalesce] at h
    split_ifs at h with hroom
    · cases extra with
      | none => exact ih h
      | some body =>
        dsimp only at h
        generalize hreq : prepareRequest opt t body first.requestedTokens
          first.requestedTokens_lt (served + 1 + pending.length) = req at h
        split_ifs at h with hrefuse hwait
        · exact ih h
        · have hadm : AdmittedAt opt t req := ⟨⟨_, _, _, _, hreq.symm⟩, by simpa using hrefuse⟩
          obtain ⟨hmore, hpend, hkeys⟩ := ih h
          refine ⟨hmore, fun r hr => ?_, hkeys⟩
          rcases hpend r hr with hr | hr
          · rcases List.mem_append.mp hr with hr | hr
            · exact Or.inl hr
            · rw [List.mem_singleton.mp hr]
              exact Or.inr hadm
          · exact Or.inr hr
        · have hadm : AdmittedAt opt t req := ⟨⟨_, _, _, _, hreq.symm⟩, by simpa using hrefuse⟩
          push Not at hwait
          obtain ⟨⟨more, rfl, hmore⟩, hpend, hkeys⟩ := ih h
          refine ⟨⟨req :: more, by simp, ?_⟩, hpend,
            fun hb => hkeys (distinctKeys_snoc hb hwait.2.2)⟩
          intro r hr
          rcases List.mem_cons.mp hr with rfl | hr
          · exact ⟨hadm, hwait.1, hwait.2.1⟩
          · exact hmore r hr
    · simp only [Prod.mk.injEq] at h
      obtain ⟨-, rfl, rfl⟩ := h
      exact ⟨⟨[], by simp⟩, fun r hr => Or.inl hr, fun h => h⟩

/-- The batch of a turn: the first request, pending ones that match it, and new ones, all with
the first one's number of tokens and position, under different keys. -/
structure Gathered (opt : ServerOptions) (s : Server) (turn : Turn) (first : HttpParsedRequest)
    (drained extras : List HttpParsedRequest) : Prop where
  taken : (s.takeFirst opt turn).2 = some first
  admitted : AdmittedAt opt s.sessions first
  matching : ((s.takeFirst opt turn).1.drained opt first).1 = first :: drained
  pending : ∀ r ∈ drained, r ∈ s.pending
  accepted : ∀ r ∈ extras, AdmittedAt opt s.sessions r
  tokens : ∀ r ∈ drained ++ extras, r.requestedTokens = first.requestedTokens
  position : ∀ r ∈ drained ++ extras, r.cachePosition = first.cachePosition
  keys : DistinctKeys (first :: (drained ++ extras))

theorem takeFirst_sessions (opt : ServerOptions) (s : Server) (turn : Turn) :
    (s.takeFirst opt turn).1.sessions = s.sessions := by
  unfold Server.takeFirst
  split <;> rfl

theorem takeFirst_pending (opt : ServerOptions) (s : Server) (turn : Turn) :
    ∀ r ∈ (s.takeFirst opt turn).1.pending, r ∈ s.pending := by
  unfold Server.takeFirst
  split
  · rename_i req pending heq
    intro r hr
    rw [heq]
    exact List.mem_cons_of_mem _ hr
  · exact fun r hr => hr

theorem takeFirst_prepared {s : Server} {turn : Turn} {first : HttpParsedRequest}
    (h : (s.takeFirst opt turn).2 = some first) :
    ∃ body fallback hfallback serial,
      first = prepareRequest opt s.sessions body fallback hfallback serial := by
  unfold Server.takeFirst at h
  split at h
  · exact ⟨_, _, _, _, (Option.some.inj h).symm⟩
  · obtain ⟨body, -, rfl⟩ := Option.map_eq_some_iff.mp h
    exact ⟨_, _, _, _, rfl⟩

/-- A turn drops its first request or executes the batch gathered around it; the requests that
wait behind it waited before or were admitted in it. -/
theorem turn_cases (opt : ServerOptions) (s : Server) (turn : Turn) :
    ((s.turn opt turn).2 = none ∧ (s.turn opt turn).1.sessions = s.sessions ∧
      ∀ r ∈ (s.turn opt turn).1.pending, r ∈ s.pending) ∨
    ∃ first drained extras, Gathered opt s turn first drained extras ∧
      (s.turn opt turn).2 = (executeBatch opt turn.runtime s.sessions first
        (first :: (drained ++ extras))).2 ∧
      (s.turn opt turn).1.sessions = (executeBatch opt turn.runtime s.sessions first
        (first :: (drained ++ extras))).1 ∧
      ∀ r ∈ (s.turn opt turn).1.pending, r ∈ s.pending ∨ AdmittedAt opt s.sessions r := by
  have hsess := takeFirst_sessions opt s turn
  have hpend := takeFirst_pending opt s turn
  have hprep := @takeFirst_prepared opt s turn
  unfold Server.turn
  cases htake : s.takeFirst opt turn with
  | mk s₁ first? =>
    rw [htake] at hsess hpend hprep
    dsimp only at hsess hpend hprep
    cases first? with
    | none => exact Or.inl ⟨rfl, hsess, hpend⟩
    | some first =>
      dsimp only
      split_ifs with hrefuse
      · exact Or.inl ⟨rfl, hsess, hpend⟩
      · right
        cases hdrain : s₁.drained opt first with
        | mk batch pending =>
          obtain ⟨⟨drained, rfl, hdrained⟩, hstay, hkeys⟩ := drain_spec hdrain
          cases hco : coalesce opt s₁.sessions first turn.extras s₁.served pending
              ([first] ++ drained) with
          | mk served r =>
            obtain ⟨pending', batch'⟩ := r
            obtain ⟨⟨extras, rfl, hextras⟩, hwait, hkeys'⟩ := coalesce_spec hco
            have hbatch : [first] ++ drained ++ extras = first :: (drained ++ extras) := by simp
            rw [hsess, Bool.not_eq_true', Bool.not_eq_false] at hrefuse
            refine ⟨first, drained, extras, ?_, ?_, ?_, ?_⟩
            · refine ⟨by rw [htake], ⟨hprep rfl, hrefuse⟩, by rw [htake, hdrain]; rfl,
                fun r hr => hpend r (hdrained r hr).1, fun r hr => hsess ▸ (hextras r hr).1,
                fun r hr => ?_, fun r hr => ?_, ?_⟩
              · rcases List.mem_append.mp hr with hr | hr
                · exact (hdrained r hr).2.1
                · exact (hextras r hr).2.1
              · rcases List.mem_append.mp hr with hr | hr
                · exact (hdrained r hr).2.2
                · exact (hextras r hr).2.2
              · exact hbatch ▸ hkeys' (hkeys (List.pairwise_singleton _ _))
            · simp only [hsess, hbatch]
            · simp only [hsess, hbatch]
            · intro r hr
              rcases hwait r hr with hr | hr
              · exact Or.inl (hpend r (hstay r hr))
              · exact Or.inr (hsess ▸ hr)

end Gather

end Ds4.Appliance
