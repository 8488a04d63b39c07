import Ds4.Appliance.Server

/-! The serving loop with its client descriptors: which request answers and closes which. A
descriptor is named by the number of connections accepted before it. -/
namespace Ds4.Appliance

/-- What was read from a connection; `promptOk` where `materialize_prompt_tokens` succeeds. -/
structure Incoming where
  method : String
  path : String
  body : HttpBody
  promptOk : Bool

inductive Route where
  | health
  | status
  | slots
  | metrics
  | generation
  | notFound
  deriving DecidableEq

def httpIsGenerationPost (method path : String) : Bool :=
  method == "POST" && (path == "/v100/selected-token" || path == "/v1/v100/selected-token" ||
    path == "/v1/completions" || path == "/v1/chat/completions" ||
    path == "/v100/diagnostic-completions")

def route (method path : String) : Route :=
  if method == "GET" && path == "/health" then .health
  else if method == "GET" && (path == "/status" || path == "/v100/status") then .status
  else if method == "GET" && path == "/v100/slots" then .slots
  else if method == "GET" && path == "/metrics" then .metrics
  else if httpIsGenerationPost method path then .generation
  else .notFound

/-- A request with the descriptor it came from. -/
structure Client where
  fd : ℕ
  incoming : Incoming
  req : HttpParsedRequest

inductive Event where
  | answer (fd status : ℕ)
  | close (fd : ℕ)
  deriving DecidableEq

structure Loop where
  sessions : SessionTable
  pending : List Client
  served : ℕ
  log : List Event

/-- What one turn meets: an arrival, the connections accepted while a batch is gathered, and the
runtime. The arrival is `none` where `accept` was interrupted; a connection, there or among the
extras, is `none` where its request is malformed. -/
structure LoopTurn where
  arrival : Option (Option Incoming)
  extras : List (Option Incoming)
  runtime : Runtime

namespace Loop

def init (opt : ServerOptions) : Loop := ⟨.init opt.slots, [], 0, []⟩

def write (s : Loop) (fd status : ℕ) : Loop := { s with log := s.log ++ [.answer fd status] }

def close (s : Loop) (fd : ℕ) : Loop := { s with log := s.log ++ [.close fd] }

/-- `http_drain_matching_pending`. -/
def drain (requestedTokens : ℕ) (cachePosition : UInt64) (maxBatch : ℕ) :
    List Client → List Client → List Client × List Client
  | [], batch => (batch, [])
  | c :: pending, batch =>
      if batch.length < maxBatch ∧ c.req.requestedTokens = requestedTokens ∧
          c.req.cachePosition = cachePosition ∧ ∀ r ∈ batch, r.req.cacheKey ≠ c.req.cacheKey then
        drain requestedTokens cachePosition maxBatch pending (batch ++ [c])
      else
        let r := drain requestedTokens cachePosition maxBatch pending batch
        (r.1, c :: r.2)

/-- The connections accepted while a batch is gathered. -/
def coalesce (opt : ServerOptions) (first : HttpParsedRequest) :
    List (Option Incoming) → Loop → List Client → Loop × List Client
  | [], s, batch => (s, batch)
  | extra :: extras, s, batch =>
      if batch.length < opt.slots then
        let fd := s.served
        let s := { s with served := s.served + 1 }
        match extra with
        | none => coalesce opt first extras (s.close fd) batch
        | some inc =>
            let req := prepareRequest opt s.sessions inc.body first.requestedTokens
              first.requestedTokens_lt (s.served + s.pending.length)
            if !httpIsGenerationPost inc.method inc.path then
              coalesce opt first extras ((s.write fd 404).close fd) batch
            else if !inc.promptOk then
              coalesce opt first extras ((s.write fd 400).close fd) batch
            else if !(contextAdmission s.sessions req opt.position contextTokens).ok then
              coalesce opt first extras ((s.write fd 400).close fd) batch
            else if req.requestedTokens ≠ first.requestedTokens ∨
                req.cachePosition ≠ first.cachePosition ∨
                ∃ c ∈ batch, c.req.cacheKey = req.cacheKey then
              coalesce opt first extras { s with pending := s.pending ++ [⟨fd, inc, req⟩] } batch
            else coalesce opt first extras s (batch ++ [⟨fd, inc, req⟩])
      else (s, batch)

/-- The answers to a batch: no slot for one of its requests, a failed decode, or its tokens. -/
def batchStatus : Option Execution → ℕ
  | none => 503
  | some x => if x.run.failed then 500 else 200

def finishBatch (s : Loop) (status : ℕ) (batch : List Client) : Loop :=
  batch.foldl (fun s c => (s.write c.fd status).close c.fd) s

/-- The generation branch for the request `inc` on descriptor `fd`. -/
def generate (opt : ServerOptions) (turn : LoopTurn) (s : Loop) (fd : ℕ) (inc : Incoming) : Loop :=
  let req := prepareRequest opt s.sessions inc.body opt.decodeSteps opt.decodeSteps_lt
    (s.served + s.pending.length)
  if !inc.promptOk then (s.write fd 400).close fd
  else if !(contextAdmission s.sessions req opt.position contextTokens).ok then
    (s.write fd 400).close fd
  else
    let drained := drain req.requestedTokens req.cachePosition opt.slots s.pending
      [⟨fd, inc, req⟩]
    let gathered := coalesce opt req turn.extras { s with pending := drained.2 } drained.1
    let r := executeBatch opt turn.runtime gathered.1.sessions req (gathered.2.map (·.req))
    finishBatch { gathered.1 with sessions := r.1 } (batchStatus r.2) gathered.2

/-- The answer to a first request. Only the last branch and the generation branch close. -/
def dispatch (opt : ServerOptions) (turn : LoopTurn) (s : Loop) (fd : ℕ) (inc : Incoming) : Loop :=
  match route inc.method inc.path with
  | .health => s.write fd 200
  | .status => s.write fd 200
  | .slots => s.write fd 200
  | .metrics => s.write fd 200
  | .generation => s.generate opt turn fd inc
  | .notFound => (s.write fd 404).close fd

def turn (opt : ServerOptions) (s : Loop) (turn : LoopTurn) : Loop :=
  match s.pending with
  | c :: pending => { s with pending }.dispatch opt turn c.fd c.incoming
  | [] =>
      match turn.arrival with
      | none => s
      | some none => { s with served := s.served + 1 }.close s.served
      | some (some inc) => { s with served := s.served + 1 }.dispatch opt turn s.served inc

def run (opt : ServerOptions) (s : Loop) (turns : List LoopTurn) : Loop :=
  turns.foldl (turn opt) s

/-- How often a descriptor was closed, and answered, and how many pending requests hold it. -/
def closes (s : Loop) (fd : ℕ) : ℕ := s.log.count (.close fd)

def answers (s : Loop) (fd : ℕ) : ℕ :=
  s.log.countP fun e => match e with
    | .answer fd' _ => fd' == fd
    | .close _ => false

def holders (s : Loop) (fd : ℕ) : ℕ := s.pending.countP (·.fd == fd)

end Loop

/-- Every accepted descriptor has been closed once or is held by one pending request, and no
other has; a descriptor is answered at most as often as it is closed. -/
structure Lifecycle (s : Loop) : Prop where
  owned : ∀ fd, s.closes fd + s.holders fd = if fd < s.served then 1 else 0
  answered : ∀ fd, s.answers fd ≤ s.closes fd

/-- Every pending request is answered and closed once the loop has come to its place in the
queue. -/
def AnsweredLater (opt : ServerOptions) (s : Loop) : Prop :=
  ∀ (i : ℕ) (c : Client), s.pending[i]? = some c → ∀ turns : List LoopTurn, i < turns.length →
    (s.run opt turns).answers c.fd = 1 ∧ (s.run opt turns).closes c.fd = 1 ∧
      (s.run opt turns).holders c.fd = 0

/-- A turn that accepts a connection for one of the four status pages. -/
def StatusPage (s : Loop) (turn : LoopTurn) : Prop :=
  s.pending = [] ∧ ∃ inc, turn.arrival = some (some inc) ∧
    (route inc.method inc.path = .health ∨ route inc.method inc.path = .status ∨
      route inc.method inc.path = .slots ∨ route inc.method inc.path = .metrics)

/-- No turn of the run accepts a connection for a status page. -/
def NoStatusPage (opt : ServerOptions) : Loop → List LoopTurn → Prop
  | _, [] => True
  | s, t :: turns => ¬ StatusPage s t ∧ NoStatusPage opt (s.turn opt t) turns

section Logs
variable (s : Loop) (fd n status : ℕ)

theorem closes_write : (s.write fd status).closes n = s.closes n := by
  simp [Loop.closes, Loop.write, List.count_append]

theorem answers_write :
    (s.write fd status).answers n = s.answers n + if fd = n then 1 else 0 := by
  simp [Loop.answers, Loop.write, List.countP_append, List.countP_cons]

theorem closes_close : (s.close fd).closes n = s.closes n + if fd = n then 1 else 0 := by
  simp [Loop.closes, Loop.close, List.count_append, List.count_cons]

theorem answers_close : (s.close fd).answers n = s.answers n := by
  simp [Loop.answers, Loop.close, List.countP_append]

/-- How many of these clients came from descriptor `n`. -/
def heldBy (clients : List Client) (n : ℕ) : ℕ := clients.countP (·.fd == n)

theorem heldBy_append (clients more : List Client) :
    heldBy (clients ++ more) n = heldBy clients n + heldBy more n := List.countP_append

theorem heldBy_cons (c : Client) (clients : List Client) :
    heldBy (c :: clients) n = heldBy clients n + if c.fd = n then 1 else 0 := by
  simp [heldBy, List.countP_cons]

end Logs

section Accounts
variable {n hand hand' hand'' : ℕ} {s s' s'' : Loop}

/-- The balance of descriptor `n` between two states, with `hand` requests from it in the hands
of the loop before and `hand'` behind. -/
structure Accounts (n : ℕ) (s : Loop) (hand : ℕ) (s' : Loop) (hand' : ℕ) : Prop where
  served : s.served ≤ s'.served
  log : s.log <+: s'.log
  total : s'.closes n + s'.holders n + hand' =
    s.closes n + s.holders n + hand + if s.served ≤ n ∧ n < s'.served then 1 else 0
  answered : s'.answers n + s.closes n ≤ s'.closes n + s.answers n

/-- A step that accepts no connection. -/
theorem Accounts.still (hserved : s'.served = s.served) (hlog : s.log <+: s'.log)
    (htotal : s'.closes n + s'.holders n + hand' = s.closes n + s.holders n + hand)
    (hanswered : s'.answers n + s.closes n ≤ s'.closes n + s.answers n) :
    Accounts n s hand s' hand' := by
  refine ⟨hserved.ge, hlog, ?_, hanswered⟩
  rw [hserved, if_neg (by omega), Nat.add_zero, htotal]

theorem Accounts.refl (n : ℕ) (s : Loop) (hand : ℕ) : Accounts n s hand s hand :=
  .still rfl (List.prefix_refl _) rfl (Nat.add_comm _ _).le

theorem Accounts.trans (h : Accounts n s hand s' hand') (h' : Accounts n s' hand' s'' hand'') :
    Accounts n s hand s'' hand'' := by
  have h1 := h.served
  have h2 := h'.served
  have h3 := h.answered
  have h4 := h'.answered
  refine ⟨h1.trans h2, h.log.trans h'.log, ?_, by omega⟩
  rw [h'.total, h.total]
  split_ifs <;> omega

/-- A connection is accepted. -/
theorem accounts_accept (n : ℕ) (s : Loop) (hand : ℕ) :
    Accounts n s hand { s with served := s.served + 1 } (hand + if s.served = n then 1 else 0) := by
  refine ⟨Nat.le_succ _, List.prefix_refl _, ?_, (Nat.add_comm _ _).le⟩
  show s.closes n + s.holders n + _ = _ + if s.served ≤ n ∧ n < s.served + 1 then 1 else 0
  split_ifs <;> omega

theorem accounts_close (n fd : ℕ) (s : Loop) (hand : ℕ) :
    Accounts n s (hand + if fd = n then 1 else 0) (s.close fd) hand := by
  refine .still rfl (List.prefix_append _ _) ?_ ?_
  · rw [closes_close]
    show s.closes n + _ + s.holders n + hand = _
    omega
  · rw [closes_close, answers_close]
    omega

theorem accounts_reject (n fd status : ℕ) (s : Loop) (hand : ℕ) :
    Accounts n s (hand + if fd = n then 1 else 0) ((s.write fd status).close fd) hand := by
  refine .still rfl ?_ ?_ ?_
  · exact (List.prefix_append _ _).trans (List.prefix_append _ _)
  · rw [closes_close, closes_write]
    show s.closes n + _ + s.holders n + hand = _
    omega
  · rw [closes_close, answers_close, closes_write, answers_write]
    omega

/-- A request joins the pending ones. -/
theorem accounts_push (n : ℕ) (s : Loop) (c : Client) (hand : ℕ) :
    Accounts n s (hand + if c.fd = n then 1 else 0)
    { s with pending := s.pending ++ [c] } hand := by
  refine .still rfl (List.prefix_refl _) ?_ (Nat.add_comm _ _).le
  show s.closes n + heldBy (s.pending ++ [c]) n + hand = s.closes n + heldBy s.pending n + _
  rw [heldBy_append, heldBy_cons]
  show s.closes n + (heldBy s.pending n + (0 + _)) + hand = _
  omega

theorem accounts_batch (n status : ℕ) (batch : List Client) (s : Loop) (hand : ℕ) :
    Accounts n s (hand + heldBy batch n) (s.finishBatch status batch) hand := by
  induction batch generalizing s with
  | nil => exact Accounts.refl n s hand
  | cons c batch ih =>
    rw [heldBy_cons, ← Nat.add_assoc]
    exact (accounts_reject n c.fd status s _).trans (ih _)

theorem heldBy_drain (requestedTokens : ℕ) (cachePosition : UInt64) (maxBatch n : ℕ)
    (pending batch : List Client) :
    heldBy (Loop.drain requestedTokens cachePosition maxBatch pending batch).1 n +
      heldBy (Loop.drain requestedTokens cachePosition maxBatch pending batch).2 n =
        heldBy pending n + heldBy batch n := by
  induction pending generalizing batch with
  | nil => exact Nat.add_comm _ _
  | cons c pending ih =>
    unfold Loop.drain
    split_ifs
    · rw [ih, heldBy_append, heldBy_cons, heldBy_cons]
      show _ + (_ + (0 + _)) = _
      omega
    · dsimp only
      rw [heldBy_cons, heldBy_cons, ← Nat.add_assoc, ih]
      omega

theorem accounts_drain (requestedTokens : ℕ) (cachePosition : UInt64) (maxBatch n : ℕ) (s : Loop)
    (batch : List Client) :
    Accounts n s (heldBy batch n)
      { s with pending := (Loop.drain requestedTokens cachePosition maxBatch s.pending batch).2 }
      (heldBy (Loop.drain requestedTokens cachePosition maxBatch s.pending batch).1 n) := by
  have hdrain := heldBy_drain requestedTokens cachePosition maxBatch n s.pending batch
  refine .still rfl (List.prefix_refl _) ?_ (Nat.add_comm _ _).le
  show s.closes n + heldBy (Loop.drain _ _ _ _ _).2 n + _ =
    s.closes n + heldBy s.pending n + _
  omega

theorem accounts_coalesce (opt : ServerOptions) (first : HttpParsedRequest) (n : ℕ)
    (extras : List (Option Incoming)) (s : Loop) (batch : List Client) :
    Accounts n s (heldBy batch n) (Loop.coalesce opt first extras s batch).1
      (heldBy (Loop.coalesce opt first extras s batch).2 n) := by
  induction extras generalizing s batch with
  | nil => exact Accounts.refl n s _
  | cons extra extras ih =>
    unfold Loop.coalesce
    split_ifs with hlen
    · have haccept := accounts_accept n s (heldBy batch n)
      cases extra with
      | none => exact (haccept.trans (accounts_close n _ _ _)).trans (ih _ _)
      | some inc =>
        dsimp only
        split_ifs
        · exact (haccept.trans (accounts_reject n _ _ _ _)).trans (ih _ _)
        · exact (haccept.trans (accounts_reject n _ _ _ _)).trans (ih _ _)
        · exact (haccept.trans (accounts_reject n _ _ _ _)).trans (ih _ _)
        · exact (haccept.trans (accounts_push n _ ⟨s.served, inc, _⟩ _)).trans (ih _ _)
        · refine Accounts.trans ?_ (ih _ _)
          rw [heldBy_append, heldBy_cons]
          show Accounts n s _ _ (_ + (0 + _))
          rw [Nat.zero_add]
          exact haccept
    · exact Accounts.refl n s _

theorem accounts_generate (opt : ServerOptions) (turn : LoopTurn) (n fd : ℕ) (inc : Incoming)
    (s : Loop) : Accounts n s (if fd = n then 1 else 0) (s.generate opt turn fd inc) 0 := by
  have hreject := accounts_reject n fd 400 s 0
  rw [Nat.zero_add] at hreject
  unfold Loop.generate
  dsimp only
  by_cases hprompt : (!inc.promptOk) = true
  · rw [if_pos hprompt]
    exact hreject
  · rw [if_neg hprompt]
    generalize prepareRequest _ _ _ _ _ _ = req
    by_cases hok : (!(contextAdmission s.sessions req opt.position contextTokens).ok) = true
    · rw [if_pos hok]
      exact hreject
    · rw [if_neg hok]
      have hdrain := accounts_drain req.requestedTokens req.cachePosition opt.slots n s
        [⟨fd, inc, req⟩]
      rw [heldBy_cons, show heldBy [] n = 0 from rfl, Nat.zero_add] at hdrain
      generalize Loop.drain _ _ _ _ _ = drained at hdrain ⊢
      have hgather := accounts_coalesce opt req n turn.extras { s with pending := drained.2 }
        drained.1
      generalize Loop.coalesce _ _ _ _ _ = gathered at hgather ⊢
      generalize executeBatch _ _ _ _ _ = r
      have hbatch := accounts_batch n (Loop.batchStatus r.2) gathered.2
        { gathered.1 with sessions := r.1 } 0
      rw [Nat.zero_add] at hbatch
      refine (hdrain.trans hgather).trans (Accounts.trans ?_ hbatch)
      exact .still rfl (List.prefix_refl _) rfl (Nat.add_comm _ _).le

end Accounts

section Turns
variable {opt : ServerOptions} {t : LoopTurn} {s : Loop} {n : ℕ}

theorem not_statusPage {inc : Incoming} (hempty : s.pending = [])
    (harrival : t.arrival = some (some inc)) (h : ¬ StatusPage s t) :
    route inc.method inc.path = .generation ∨ route inc.method inc.path = .notFound := by
  cases hroute : route inc.method inc.path with
  | generation => exact Or.inl rfl
  | notFound => exact Or.inr rfl
  | health => exact absurd ⟨hempty, inc, harrival, by tauto⟩ h
  | status => exact absurd ⟨hempty, inc, harrival, by tauto⟩ h
  | slots => exact absurd ⟨hempty, inc, harrival, by tauto⟩ h
  | metrics => exact absurd ⟨hempty, inc, harrival, by tauto⟩ h

theorem accounts_dispatch (opt : ServerOptions) (t : LoopTurn) (n fd : ℕ) {inc : Incoming}
    (s : Loop) (hroute : route inc.method inc.path = .generation ∨
      route inc.method inc.path = .notFound) :
    Accounts n s (if fd = n then 1 else 0) (s.dispatch opt t fd inc) 0 := by
  unfold Loop.dispatch
  rcases hroute with hroute | hroute
  · rw [hroute]
    exact accounts_generate opt t n fd inc s
  · rw [hroute]
    have hreject := accounts_reject n fd 404 s 0
    rwa [Nat.zero_add] at hreject

def Waits (c : Client) : Prop :=
  httpIsGenerationPost c.incoming.method c.incoming.path = true ∧ c.incoming.promptOk = true ∧
    c.req.body = c.incoming.body

/-- Only generation requests with their prompts wait. -/
def Queued (s : Loop) : Prop := ∀ c ∈ s.pending, Waits c

theorem route_generation {method path : String} (h : httpIsGenerationPost method path = true) :
    route method path = .generation := by
  have hpost : method = "POST" := by
    unfold httpIsGenerationPost at h
    simpa using (Bool.and_eq_true_iff.mp h).1
  subst hpost
  unfold route
  simp [h]

theorem turn_pending {c : Client} {pending : List Client} (h : s.pending = c :: pending) :
    s.turn opt t = { s with pending }.dispatch opt t c.fd c.incoming := by
  unfold Loop.turn
  rw [h]

theorem turn_idle (h : s.pending = []) (harrival : t.arrival = none) :
    s.turn opt t = s := by
  unfold Loop.turn
  rw [h, harrival]

theorem turn_malformed (h : s.pending = []) (harrival : t.arrival = some none) :
    s.turn opt t = { s with served := s.served + 1 }.close s.served := by
  unfold Loop.turn
  rw [h, harrival]

theorem turn_arrival {inc : Incoming} (h : s.pending = [])
    (harrival : t.arrival = some (some inc)) :
    s.turn opt t = { s with served := s.served + 1 }.dispatch opt t s.served inc := by
  unfold Loop.turn
  rw [h, harrival]

theorem accounts_turn (opt : ServerOptions) (hq : Queued s) (hpage : ¬ StatusPage s t) (n : ℕ) :
    Accounts n s 0 (s.turn opt t) 0 := by
  cases hpending : s.pending with
  | cons c pending =>
    have hroute := route_generation (hq c (hpending ▸ List.mem_cons_self)).1
    rw [turn_pending hpending]
    refine Accounts.trans ?_ (accounts_dispatch opt t n c.fd _ (Or.inl hroute))
    refine .still rfl (List.prefix_refl _) ?_ (Nat.add_comm _ _).le
    show s.closes n + heldBy pending n + _ = s.closes n + heldBy s.pending n + 0
    rw [hpending, heldBy_cons]
    omega
  | nil =>
    cases harrival : t.arrival with
    | none =>
      rw [turn_idle hpending harrival]
      exact Accounts.refl n s 0
    | some read =>
      have haccept := accounts_accept n s 0
      cases read with
      | none =>
        rw [turn_malformed hpending harrival]
        exact haccept.trans (accounts_close n _ _ 0)
      | some inc =>
        rw [turn_arrival hpending harrival]
        rw [Nat.zero_add] at haccept
        exact haccept.trans (accounts_dispatch opt t n s.served _
          (not_statusPage hpending harrival hpage))

/-- A status page is answered and its descriptor dropped. -/
theorem turn_statusPage (opt : ServerOptions) (h : StatusPage s t) :
    (s.turn opt t).served = s.served + 1 ∧ (s.turn opt t).pending = s.pending ∧
      (s.turn opt t).log = s.log ++ [.answer s.served 200] := by
  obtain ⟨hempty, inc, harrival, hroute⟩ := h
  rw [turn_arrival hempty harrival]
  unfold Loop.dispatch
  rcases hroute with hroute | hroute | hroute | hroute <;>
    · rw [hroute]
      exact ⟨rfl, rfl, rfl⟩

/-- The balance of an old descriptor is kept by every turn. -/
theorem turn_settled (opt : ServerOptions) (t : LoopTurn) (hq : Queued s) (hn : n < s.served) :
    n < (s.turn opt t).served ∧
      (s.turn opt t).closes n + (s.turn opt t).holders n = s.closes n + s.holders n ∧
      (s.turn opt t).answers n + s.closes n ≤ (s.turn opt t).closes n + s.answers n ∧
      s.log <+: (s.turn opt t).log := by
  by_cases hpage : StatusPage s t
  · obtain ⟨hserved, hpending, hlog⟩ := turn_statusPage opt hpage
    have hcloses : (s.turn opt t).closes n = s.closes n := by
      unfold Loop.closes
      rw [hlog]
      exact closes_write s s.served n 200
    have hholders : (s.turn opt t).holders n = s.holders n := by
      unfold Loop.holders
      rw [hpending]
    have hanswers : (s.turn opt t).answers n = s.answers n := by
      unfold Loop.answers
      rw [hlog]
      refine (answers_write s s.served n 200).trans ?_
      rw [if_neg (by omega)]
      rfl
    refine ⟨by omega, by omega, by omega, ?_⟩
    rw [hlog]
    exact List.prefix_append _ _
  · have h := accounts_turn opt hq hpage n
    have htotal := h.total
    rw [if_neg (by omega)] at htotal
    exact ⟨hn.trans_le h.served, by omega, h.answered, h.log⟩

end Turns

section Queue
variable {opt : ServerOptions} {t : LoopTurn} {s : Loop} {requestedTokens maxBatch : ℕ}
  {cachePosition : UInt64}

theorem drain_mem {c : Client} (pending batch : List Client) (h : c ∈ batch) :
    c ∈ (Loop.drain requestedTokens cachePosition maxBatch pending batch).1 := by
  induction pending generalizing batch with
  | nil => exact h
  | cons c' pending ih =>
    unfold Loop.drain
    split_ifs
    · exact ih _ (List.mem_append_left _ h)
    · exact ih _ h

/-- Requests that a batch does not take keep their order. -/
theorem drain_getElem? {i : ℕ} {c : Client} (pending batch : List Client)
    (h : pending[i]? = some c) :
    c ∈ (Loop.drain requestedTokens cachePosition maxBatch pending batch).1 ∨
      ∃ j ≤ i, (Loop.drain requestedTokens cachePosition maxBatch pending batch).2[j]? =
        some c := by
  induction pending generalizing batch i with
  | nil => simp at h
  | cons c' pending ih =>
    unfold Loop.drain
    split_ifs with htake
    · cases i with
      | zero =>
        obtain rfl := Option.some.inj h
        exact Or.inl (drain_mem _ _ (List.mem_append_right _ List.mem_cons_self))
      | succ i =>
        rcases ih (batch ++ [c']) h with hm | ⟨j, hj, hget⟩
        · exact Or.inl hm
        · exact Or.inr ⟨j, by omega, hget⟩
    · cases i with
      | zero => exact Or.inr ⟨0, le_refl _, h⟩
      | succ i =>
        rcases ih batch h with hm | ⟨j, hj, hget⟩
        · exact Or.inl hm
        · exact Or.inr ⟨j + 1, by omega, hget⟩

theorem drain_pending {c : Client} (pending batch : List Client)
    (h : c ∈ (Loop.drain requestedTokens cachePosition maxBatch pending batch).2) :
    c ∈ pending := by
  induction pending generalizing batch with
  | nil => exact h
  | cons c' pending ih =>
    unfold Loop.drain at h
    split_ifs at h
    · exact List.mem_cons_of_mem _ (ih _ h)
    · rcases List.mem_cons.mp h with rfl | hm
      · exact List.mem_cons_self
      · exact List.mem_cons_of_mem _ (ih _ hm)

/-- The queue and the batch only grow while connections are accepted. -/
theorem coalesce_grows (opt : ServerOptions) (first : HttpParsedRequest)
    (extras : List (Option Incoming)) (s : Loop) (batch : List Client) :
    ∃ new more, (Loop.coalesce opt first extras s batch).1.pending = s.pending ++ new ∧
      (∀ c ∈ new, Waits c) ∧ (Loop.coalesce opt first extras s batch).2 = batch ++ more := by
  induction extras generalizing s batch with
  | nil => exact ⟨[], [], by simp [Loop.coalesce]⟩
  | cons extra extras ih =>
    unfold Loop.coalesce
    split_ifs with hlen
    · cases extra with
      | none => exact ih _ _
      | some inc =>
        dsimp only
        split_ifs with hpost hprompt hok hwait
        · exact ih _ _
        · exact ih _ _
        · exact ih _ _
        · obtain ⟨new, more, hnew, hwaits, hmore⟩ := ih
            { s with served := s.served + 1, pending := s.pending ++ [⟨s.served, inc, _⟩] } batch
          refine ⟨_ :: new, more, hnew.trans (List.append_assoc _ _ _), ?_, hmore⟩
          intro c hc
          rcases List.mem_cons.mp hc with rfl | hm
          · exact ⟨by simpa using hpost, by simpa using hprompt, rfl⟩
          · exact hwaits c hm
        · obtain ⟨new, more, hnew, hwaits, hmore⟩ := ih { s with served := s.served + 1 }
            (batch ++ [⟨s.served, inc, _⟩])
          exact ⟨new, _ :: more, hnew, hwaits, hmore.trans (List.append_assoc _ _ _)⟩
    · exact ⟨[], [], by simp⟩

theorem finishBatch_pending (status : ℕ) (batch : List Client) (s : Loop) :
    (s.finishBatch status batch).pending = s.pending := by
  induction batch generalizing s with
  | nil => rfl
  | cons c batch ih => exact ih _

theorem closes_mono {s s' : Loop} (h : s.log <+: s'.log) (fd : ℕ) : s.closes fd ≤ s'.closes fd :=
  h.sublist.count_le _

theorem answers_mono {s s' : Loop} (h : s.log <+: s'.log) (fd : ℕ) :
    s.answers fd ≤ s'.answers fd := h.sublist.countP_le

/-- Every request of a batch is answered and closed at its end. -/
theorem finishBatch_answers {c : Client} (status : ℕ) (batch : List Client) (s : Loop)
    (h : c ∈ batch) : 1 ≤ (s.finishBatch status batch).answers c.fd ∧
      1 ≤ (s.finishBatch status batch).closes c.fd := by
  induction batch generalizing s with
  | nil => simp at h
  | cons c' batch ih =>
    rcases List.mem_cons.mp h with rfl | hm
    · have hlog := (accounts_batch c.fd status batch ((s.write c.fd status).close c.fd) 0).log
      have hans := answers_mono hlog c.fd
      have hclose := closes_mono hlog c.fd
      rw [answers_close, answers_write, if_pos rfl] at hans
      rw [closes_close, if_pos rfl] at hclose
      exact ⟨(Nat.le_add_left _ _).trans hans, (Nat.le_add_left _ _).trans hclose⟩
    · exact ih _ hm

/-- A generation request is rejected alone, or answered with the batch gathered around it. -/
theorem generate_cases (opt : ServerOptions) (t : LoopTurn) (s : Loop) (fd : ℕ)
    (inc : Incoming) :
    s.generate opt t fd inc = (s.write fd 400).close fd ∨
      ∃ (req : HttpParsedRequest) (new : List Client), (∀ c ∈ new, Waits c) ∧
        (s.generate opt t fd inc).pending = (Loop.drain req.requestedTokens req.cachePosition
          opt.slots s.pending [⟨fd, inc, req⟩]).2 ++ new ∧
        ∀ c ∈ (Loop.drain req.requestedTokens req.cachePosition opt.slots s.pending
          [⟨fd, inc, req⟩]).1, 1 ≤ (s.generate opt t fd inc).answers c.fd ∧
            1 ≤ (s.generate opt t fd inc).closes c.fd := by
  unfold Loop.generate
  dsimp only
  split_ifs with hprompt hok
  · exact Or.inl rfl
  · exact Or.inl rfl
  · generalize prepareRequest _ _ _ _ _ _ = req
    generalize hd : Loop.drain req.requestedTokens req.cachePosition opt.slots s.pending
      [⟨fd, inc, req⟩] = drained
    obtain ⟨new, more, hnew, hwaits, hmore⟩ := coalesce_grows opt req t.extras
      { s with pending := drained.2 } drained.1
    refine Or.inr ⟨req, new, hwaits, ?_, ?_⟩
    · rw [finishBatch_pending, hd]
      exact hnew
    · intro c hc
      rw [hd] at hc
      exact finishBatch_answers _ _ _ (hmore ▸ List.mem_append_left _ hc)

end Queue

section Runs
variable {opt : ServerOptions} {t : LoopTurn} {s : Loop}

/-- What a turn does to the queue: its first request is answered and closed, and every other
one has been too or has moved forward. -/
theorem turn_progress (opt : ServerOptions) (t : LoopTurn) (hq : Queued s) {i : ℕ} {c : Client}
    (hc : s.pending[i]? = some c) :
    (1 ≤ (s.turn opt t).answers c.fd ∧ 1 ≤ (s.turn opt t).closes c.fd) ∨
      ∃ j < i, (s.turn opt t).pending[j]? = some c := by
  cases hpending : s.pending with
  | nil => simp [hpending] at hc
  | cons c₀ rest =>
    have hroute := route_generation (hq c₀ (hpending ▸ List.mem_cons_self)).1
    rw [hpending] at hc
    rw [turn_pending hpending]
    unfold Loop.dispatch
    rw [hroute]
    dsimp only
    rcases generate_cases opt t { s with pending := rest } c₀.fd c₀.incoming with
      heq | ⟨req, new, -, hnew, hanswered⟩
    · rw [heq]
      cases i with
      | zero =>
        obtain rfl := Option.some.inj hc
        rw [answers_close, answers_write, closes_close, if_pos rfl]
        exact Or.inl ⟨Nat.le_add_left _ _, Nat.le_add_left _ _⟩
      | succ i => exact Or.inr ⟨i, Nat.lt_succ_self _, hc⟩
    · cases i with
      | zero =>
        obtain rfl := Option.some.inj hc
        exact Or.inl (hanswered ⟨c₀.fd, c₀.incoming, req⟩ (drain_mem _ _ List.mem_cons_self))
      | succ i =>
        rcases drain_getElem? rest [⟨c₀.fd, c₀.incoming, req⟩] hc with hm | ⟨j, hj, hget⟩
        · exact Or.inl (hanswered c hm)
        · refine Or.inr ⟨j, by omega, ?_⟩
          rw [hnew, List.getElem?_append_left (List.getElem?_eq_some_iff.mp hget).1]
          exact hget

theorem Queued.generate (hq : Queued s) (fd : ℕ) (inc : Incoming) :
    Queued (s.generate opt t fd inc) := by
  rcases generate_cases opt t s fd inc with heq | ⟨req, new, hwaits, hnew, -⟩
  · rw [heq]
    exact hq
  · intro c hc
    rw [hnew] at hc
    rcases List.mem_append.mp hc with hm | hm
    · exact hq c (drain_pending _ _ hm)
    · exact hwaits c hm

theorem Queued.dispatch (hq : Queued s) (fd : ℕ) (inc : Incoming) :
    Queued (s.dispatch opt t fd inc) := by
  unfold Loop.dispatch
  cases route inc.method inc.path with
  | generation => exact hq.generate fd inc
  | health => exact hq
  | status => exact hq
  | slots => exact hq
  | metrics => exact hq
  | notFound => exact hq

theorem Queued.turn (opt : ServerOptions) (t : LoopTurn) (hq : Queued s) :
    Queued (s.turn opt t) := by
  cases hpending : s.pending with
  | cons c pending =>
    rw [turn_pending hpending]
    refine Queued.dispatch (fun c' hc' => hq c' ?_) _ _
    rw [hpending]
    exact List.mem_cons_of_mem _ hc'
  | nil =>
    cases harrival : t.arrival with
    | none => rwa [turn_idle hpending harrival]
    | some read =>
      cases read with
      | none =>
        rw [turn_malformed hpending harrival]
        exact hq
      | some inc =>
        rw [turn_arrival hpending harrival]
        show Queued (Loop.dispatch opt t { s with served := s.served + 1 } _ _)
        apply Queued.dispatch
        exact hq

/-- Over any further turns an old descriptor keeps its balance. -/
theorem run_settled (opt : ServerOptions) (turns : List LoopTurn) (hq : Queued s) {n : ℕ}
    (hn : n < s.served) :
    Queued (s.run opt turns) ∧ n < (s.run opt turns).served ∧
      (s.run opt turns).closes n + (s.run opt turns).holders n = s.closes n + s.holders n ∧
      (s.run opt turns).answers n + s.closes n ≤ (s.run opt turns).closes n + s.answers n ∧
      s.log <+: (s.run opt turns).log := by
  induction turns generalizing s with
  | nil => exact ⟨hq, hn, rfl, (Nat.add_comm _ _).le, List.prefix_refl _⟩
  | cons t turns ih =>
    obtain ⟨hserved, htotal, hanswers, hlog⟩ := turn_settled opt t hq hn
    obtain ⟨hq', hserved', htotal', hanswers', hlog'⟩ := ih (hq.turn opt t) hserved
    exact ⟨hq', hserved', htotal'.trans htotal, by
      show (Loop.run opt (s.turn opt t) turns).answers n + _ ≤
        (Loop.run opt (s.turn opt t) turns).closes n + _
      omega, hlog.trans hlog'⟩

/-- A pending request is reached after as many turns as there are requests before it. -/
theorem run_reaches (opt : ServerOptions) (turns : List LoopTurn) (hq : Queued s) {i : ℕ}
    {c : Client} (hc : s.pending[i]? = some c) (hi : i < turns.length) (hfd : c.fd < s.served) :
    1 ≤ (s.run opt turns).answers c.fd ∧ 1 ≤ (s.run opt turns).closes c.fd := by
  induction turns generalizing s i with
  | nil => simp at hi
  | cons t turns ih =>
    have hserved := (turn_settled opt t hq hfd).1
    rcases turn_progress opt t hq hc with ⟨hans, hclose⟩ | ⟨j, hj, hget⟩
    · have hlog := (run_settled opt turns (hq.turn opt t) hserved).2.2.2.2
      exact ⟨hans.trans (answers_mono hlog _), hclose.trans (closes_mono hlog _)⟩
    · rw [List.length_cons] at hi
      exact ih (hq.turn opt t) hget (by omega) hserved

theorem holders_pos {c : Client} (h : c ∈ s.pending) : 1 ≤ s.holders c.fd :=
  List.countP_pos_iff.mpr ⟨c, h, beq_self_eq_true _⟩

theorem Lifecycle.answeredLater (opt : ServerOptions) (h : Lifecycle s) (hq : Queued s) :
    AnsweredLater opt s := by
  intro i c hc turns hi
  have hheld := holders_pos (List.mem_of_getElem? hc)
  have howned := h.owned c.fd
  have hfd : c.fd < s.served := by
    by_contra hnot
    rw [if_neg hnot] at howned
    omega
  rw [if_pos hfd] at howned
  have hanswered := h.answered c.fd
  obtain ⟨-, -, htotal, hanswers, -⟩ := run_settled opt turns hq hfd
  obtain ⟨hans, hclose⟩ := run_reaches opt turns hq hc hi hfd
  omega

theorem Lifecycle.init (opt : ServerOptions) : Lifecycle (.init opt) :=
  ⟨fun _ => (if_neg (Nat.not_lt_zero _)).symm, fun _ => le_refl _⟩

theorem Lifecycle.turn (opt : ServerOptions) (h : Lifecycle s) (hq : Queued s)
    (hpage : ¬ StatusPage s t) :
    Lifecycle (s.turn opt t) := by
  refine ⟨fun n => ?_, fun n => ?_⟩
  · have htotal := (accounts_turn opt hq hpage n).total
    have hserved := (accounts_turn opt hq hpage n).served
    have howned := h.owned n
    split_ifs at htotal howned ⊢ <;> omega
  · have hanswers := (accounts_turn opt hq hpage n).answered
    have := h.answered n
    omega

/-- A descriptor that nobody holds or closes stays so. -/
theorem statusPage_leaks (h : Lifecycle s) (hq : Queued s) (hpage : StatusPage s t)
    (turns : List LoopTurn) : ¬ Lifecycle ((s.turn opt t).run opt turns) := by
  obtain ⟨hserved, hpending, hlog⟩ := turn_statusPage opt hpage
  intro hlife
  have howned := h.owned s.served
  rw [if_neg (lt_irrefl _)] at howned
  have hcloses : (s.turn opt t).closes s.served = s.closes s.served := by
    unfold Loop.closes
    rw [hlog]
    exact closes_write s s.served s.served 200
  have hholders : (s.turn opt t).holders s.served = s.holders s.served := by
    unfold Loop.holders
    rw [hpending]
  have hlt : s.served < (s.turn opt t).served := by omega
  obtain ⟨-, hserved', htotal, -⟩ := run_settled opt turns (hq.turn opt t) hlt
  have hfinal := hlife.owned s.served
  rw [if_pos hserved'] at hfinal
  omega

theorem lifecycle_run (turns : List LoopTurn) (h : Lifecycle s) (hq : Queued s) :
    (Lifecycle (s.run opt turns) ∧ AnsweredLater opt (s.run opt turns)) ↔
      NoStatusPage opt s turns := by
  induction turns generalizing s with
  | nil => exact ⟨fun _ => trivial, fun _ => ⟨h, h.answeredLater opt hq⟩⟩
  | cons t turns ih =>
    by_cases hpage : StatusPage s t
    · constructor
      · exact fun hlife => absurd hlife.1 (statusPage_leaks h hq hpage turns)
      · exact fun hno => absurd hpage hno.1
    · have hnext := ih (h.turn opt hq hpage) (hq.turn opt t)
      exact ⟨fun hlife => ⟨hpage, hnext.mp hlife⟩, fun hno => hnext.mpr hno.2⟩

end Runs

/-- In a run from the start every accepted descriptor is closed once, or is held by one pending
request that is answered when its turn comes, exactly if no status page was asked for by a
connection that the loop accepted itself. -/
theorem lifecycle_iff (opt : ServerOptions) (turns : List LoopTurn) :
    (Lifecycle ((Loop.init opt).run opt turns) ∧
      AnsweredLater opt ((Loop.init opt).run opt turns)) ↔
        NoStatusPage opt (.init opt) turns :=
  lifecycle_run turns (Lifecycle.init opt) (by simp [Queued, Loop.init])

/-- A connection that asks for the health page and goes. -/
def healthTurn : LoopTurn :=
  ⟨some (some ⟨"GET", "/health", ⟨none, none, none, [], none, noMaxTokens_le, noTokens_le⟩, true⟩),
    [], fun _ _ => none⟩

def oneSlot : ServerOptions where
  slots := 1
  position := 0
  decodeSteps := 1
  decodeSteps_lt := oneStep_lt

theorem healthTurn_leaks : ¬ Lifecycle ((Loop.init oneSlot).run oneSlot [healthTurn]) :=
  statusPage_leaks (Lifecycle.init oneSlot) (by simp [Queued, Loop.init])
    ⟨rfl, _, rfl, Or.inl (by decide)⟩ []

section Server
variable {opt : ServerOptions} {t : LoopTurn} {s : Loop}

/-- The body of a generation request with a prompt. -/
def generationBody (read : Option Incoming) : Option HttpBody :=
  read.bind fun inc =>
    if httpIsGenerationPost inc.method inc.path && inc.promptOk then some inc.body else none

def LoopTurn.turn (t : LoopTurn) : Turn :=
  ⟨t.arrival.bind generationBody, t.extras.map generationBody, t.runtime⟩

end Server

end Ds4.Appliance
