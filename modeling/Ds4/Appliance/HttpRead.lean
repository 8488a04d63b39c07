import Ds4.Http.Request

/-! The appliance's reading of a request: one buffer, read into until the header and as many bytes
of the body as it announces are there. -/
namespace Ds4.Appliance
open Ds4.Http (Socket recv_got strtol scanWord)

/-- `sizeof(req)`. -/
def reqSize : ℕ := 8192

def crlfPair : Bytes := [13, 10, 13, 10]

/-- `http_content_length`, on the text in the buffer. A number that is not there is zero, as
`strtol` has it. -/
def httpContentLength (req : Bytes) : ℕ :=
  match Search.find (lit "Content-Length:") req with
  | none => 0
  | some i =>
      let v := strtol ((req.drop (i + 15)).dropWhile fun c => c == 32 || c == 9)
      if v < 0 ∨ 4096 < v then 0 else v.toNat

/-- The test that ends the loop. -/
def isComplete (req : Bytes) : Bool :=
  match Search.find crlfPair (cstr req) with
  | none => false
  | some i => i + 4 + httpContentLength (cstr req) ≤ req.length

/-- The loop of `http_read_request`. An interrupted call fails like one at the end. -/
def readLoop (fd : Socket) (req : Bytes) : Option Bytes :=
  if reqSize ≤ req.length + 1 then none
  else
    match _h : fd.recv (reqSize - 1 - req.length) with
    | (none, _) => none
    | (some [], _) => none
    | (some (c :: tmp), fd') =>
        if isComplete (req ++ c :: tmp) then some (req ++ c :: tmp)
        else readLoop fd' (req ++ c :: tmp)
termination_by reqSize - req.length
decreasing_by
  rw [List.length_append, List.length_cons]
  omega

/-- `sscanf(req, "%15s %255s")`. -/
def methodAndPath (req : Bytes) : Option (Bytes × Bytes) :=
  match scanWord 15 req with
  | none => none
  | some (method, rest) =>
      match scanWord 255 rest with
      | none => none
      | some (path, _) => some (method, path)

/-- What of `HttpParsedRequest` is read from the socket. -/
structure ParsedRequest where
  method : Bytes
  path : Bytes
  body : Bytes
  deriving DecidableEq

/-- The request in a buffer. -/
def parseRequest (req : Bytes) : Option ParsedRequest :=
  match methodAndPath (cstr req) with
  | none => none
  | some (method, path) =>
      some ⟨method, path, match Search.find crlfPair (cstr req) with
        | none => []
        | some i => (cstr req).drop (i + 4)⟩

/-- `http_read_request`. -/
def httpReadRequest (fd : Socket) : Option ParsedRequest := (readLoop fd []).bind parseRequest

section Stops
variable {s t : Bytes} {k : ℕ}

/-- The bytes that the buffer takes of a stream. -/
def readable (s : Bytes) : ℕ := min s.length (reqSize - 1)

/-- The loop can stop with so many bytes. -/
structure Stops (s : Bytes) (k : ℕ) : Prop where
  pos : 0 < k
  le : k ≤ readable s
  complete : isComplete (s.take k) = true

theorem readLoop_got {fd fd' : Socket} {req tmp : Bytes} {c : UInt8}
    (hlen : req.length + 1 < reqSize)
    (hrecv : fd.recv (reqSize - 1 - req.length) = (some (c :: tmp), fd')) :
    readLoop fd req =
      if isComplete (req ++ c :: tmp) then some (req ++ c :: tmp)
      else readLoop fd' (req ++ c :: tmp) := by
  rw [readLoop, if_neg (not_le.2 hlen)]
  split
  · next heq => cases heq.symm.trans hrecv
  · next heq => cases heq.symm.trans hrecv
  · next heq =>
    obtain ⟨htmp, rfl⟩ := Prod.mk.inj (heq.symm.trans hrecv)
    obtain ⟨rfl, rfl⟩ := List.cons.inj (Option.some.inj htmp)
    rfl

/-- The loop only stops where it can. -/
theorem readLoop_some (fd : Socket) (req : Bytes) (hs : req ++ fd.bytes = s)
    (hreq : req.length ≤ readable s) (h : readLoop fd req = some t) :
    ∃ k, Stops s k ∧ t = s.take k := by
  fun_induction readLoop fd req with
  | case1 fd req hfull => cases h
  | case2 fd req hroom fd' hrecv => cases h
  | case3 fd req hroom fd' hrecv => cases h
  | case4 fd req hroom c tmp fd' hrecv hdone =>
    obtain ⟨hbytes, hcap, -, -⟩ := recv_got (by omega) hrecv
    have hall : s = (req ++ c :: tmp) ++ fd'.bytes := by rw [← hs, hbytes, List.append_assoc]
    have htake : s.take (req ++ c :: tmp).length = req ++ c :: tmp := by rw [hall, List.take_left]
    refine ⟨(req ++ c :: tmp).length, ⟨?_, ?_, htake.symm ▸ hdone⟩, ?_⟩
    · rw [List.length_append, List.length_cons]
      omega
    · have hle : (req ++ c :: tmp).length ≤ s.length := by
        rw [hall]
        exact (List.prefix_append _ _).length_le
      have hcap' : (req ++ c :: tmp).length ≤ reqSize - 1 := by
        rw [List.length_append]
        omega
      exact le_min hle hcap'
    · rw [htake]
      exact (Option.some.inj h).symm
  | case5 fd req hroom c tmp fd' hrecv hdone ih =>
    obtain ⟨hbytes, hcap, -, -⟩ := recv_got (by omega) hrecv
    have hall : s = (req ++ c :: tmp) ++ fd'.bytes := by rw [← hs, hbytes, List.append_assoc]
    refine ih hall.symm (le_min ?_ ?_) h
    · rw [hall]
      exact (List.prefix_append _ _).length_le
    · rw [List.length_append]
      omega

/-- A socket whose calls are not interrupted. -/
def split (s : Bytes) (calls : List ℕ) : Socket := ⟨s, calls.map some⟩

/-- Where it can stop with all that is readable, every split stops. -/
theorem readLoop_stops (calls : List ℕ) (req rest : Bytes) (hs : req ++ rest = s)
    (hreq : req.length < readable s) (hall : isComplete (s.take (readable s)) = true) :
    ∃ t, readLoop (split rest calls) req = some t := by
  obtain ⟨n, hn⟩ : ∃ n, n = readable s - req.length := ⟨_, rfl⟩
  induction n using Nat.strong_induction_on generalizing calls req rest with
  | _ n ih =>
    have hroom : req.length + 1 < reqSize := by
      have := Nat.min_le_right s.length (reqSize - 1)
      unfold readable at hreq
      omega
    have hrest : 0 < rest.length := by
      have hle := Nat.min_le_left s.length (reqSize - 1)
      have hlen := congrArg List.length hs
      rw [List.length_append] at hlen
      unfold readable at hreq
      omega
    obtain ⟨m, calls', hm, hcap, hrecv⟩ : ∃ m calls', 0 < m ∧ m ≤ reqSize - 1 - req.length ∧
        (split rest calls).recv (reqSize - 1 - req.length) =
          (some (rest.take m), split (rest.drop m) calls') := by
      cases calls with
      | nil => exact ⟨_, [], by omega, le_rfl, rfl⟩
      | cons a calls => exact ⟨min (a + 1) (reqSize - 1 - req.length), calls, by omega,
          min_le_right _ _, rfl⟩
    cases htmp : rest.take m with
    | nil =>
      have hzero := congrArg List.length htmp
      rw [List.length_take, List.length_nil] at hzero
      omega
    | cons c tmp =>
      rw [htmp] at hrecv
      rw [readLoop_got hroom hrecv]
      by_cases hdone : isComplete (req ++ c :: tmp) = true
      · exact ⟨_, if_pos hdone⟩
      rw [if_neg hdone]
      have hsplit : (req ++ c :: tmp) ++ rest.drop m = s := by
        rw [← htmp, List.append_assoc, List.take_append_drop, hs]
      have hlen : (req ++ c :: tmp).length ≤ readable s := by
        refine le_min ?_ ?_
        · rw [← hsplit]
          exact (List.prefix_append _ _).length_le
        · rw [← htmp, List.length_append, List.length_take]
          omega
      have hne : (req ++ c :: tmp).length ≠ readable s := by
        intro heq
        rw [← heq, ← hsplit, List.take_left] at hall
        exact hdone hall
      refine ih _ ?_ calls' _ _ hsplit (lt_of_le_of_ne hlen hne) rfl
      rw [List.length_append, List.length_cons] at hlen ⊢
      omega

/-- A first call that returns `k` bytes stops there, if the loop can. -/
theorem exists_split (h : Stops s k) : ∃ calls, readLoop (split s calls) [] = some (s.take k) := by
  obtain ⟨hpos, hle, hdone⟩ := h
  obtain ⟨hlen, hcap⟩ := le_min_iff.1 hle
  have hk : min (k - 1 + 1) (reqSize - 1 - 0) = k := by omega
  cases htmp : s.take k with
  | nil =>
    have hzero := congrArg List.length htmp
    rw [List.length_take, List.length_nil] at hzero
    omega
  | cons c tmp =>
    have hrecv :
        (split s [k - 1]).recv (reqSize - 1 - 0) = (some (c :: tmp), split (s.drop k) []) := by
      unfold split Socket.recv
      simp only [List.map_cons, List.map_nil, hk, htmp]
    refine ⟨[k - 1], (readLoop_got (by decide) hrecv).trans ?_⟩
    rw [List.nil_append, ← htmp, if_pos hdone]

theorem readLoop_end {fd : Socket} {req : Bytes} (h : reqSize ≤ req.length + 1 ∨ fd.bytes = []) :
    readLoop fd req = none := by
  rw [readLoop]
  split_ifs with hfull
  · rfl
  split
  · rfl
  · rfl
  · next c tmp fd' hrecv =>
    have hbytes := (recv_got (by omega) hrecv).1
    rw [h.resolve_left hfull] at hbytes
    cases hbytes

/-- A split that returns all at once fails, if the loop cannot stop there. -/
theorem exists_failure (h : isComplete (s.take (readable s)) = false) :
    readLoop (split s []) [] = none := by
  have htake : s.take (reqSize - 1) = s.take (readable s) := by
    unfold readable
    rw [Nat.min_comm]
    exact List.take_eq_take_min
  have hrecv : (split s []).recv (reqSize - 1 - 0) =
      (some (s.take (readable s)), split (s.drop (reqSize - 1)) []) := by
    rw [← htake]
    rfl
  cases hall : s.take (readable s) with
  | nil =>
    rw [← htake] at hall
    exact readLoop_end (Or.inr ((List.take_eq_nil_iff.1 hall).resolve_left (by decide)))
  | cons c tmp =>
    rw [hall] at hrecv h
    refine (readLoop_got (by decide) hrecv).trans ?_
    rw [List.nil_append, if_neg (by rw [h]; exact Bool.false_ne_true)]
    apply readLoop_end
    have hlen : (s.take (readable s)).length = readable s :=
      List.length_take_of_le (Nat.min_le_left _ _)
    rw [← hall, hlen]
    show reqSize ≤ readable s + 1 ∨ s.drop (reqSize - 1) = []
    unfold readable
    rcases Nat.le_total s.length (reqSize - 1) with hle | hle
    · exact Or.inr (List.drop_eq_nil_iff.2 hle)
    · exact Or.inl (by omega)

end Stops

end Ds4.Appliance
