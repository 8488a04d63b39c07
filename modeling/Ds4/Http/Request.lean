import Ds4.Bytes.Ascii
import Mathlib.Tactic.NormNum

/-! Reading one HTTP request from a socket that gives the client's bytes in pieces. -/
namespace Ds4.Http

/-- What the client has still to send before it closes, and how many bytes the next calls of
`recv` return at most (less one), or that they are interrupted. Later calls return all that
they are asked for. -/
structure Socket where
  bytes : Bytes
  calls : List (Option ℕ) := []

/-- `none` is `EINTR`; no bytes are the end of the stream. -/
def Socket.recv (fd : Socket) (cap : ℕ) : Option Bytes × Socket :=
  match fd.calls with
  | [] => (some (fd.bytes.take cap), ⟨fd.bytes.drop cap, []⟩)
  | none :: calls => (none, ⟨fd.bytes, calls⟩)
  | some n :: calls =>
      (some (fd.bytes.take (min (n + 1) cap)), ⟨fd.bytes.drop (min (n + 1) cap), calls⟩)

/-- The bytes behind the first empty line that ends in CRLF like the line before it, or else
behind the first one that ends in LF. -/
def headerEnd (p : Bytes) : Option ℕ :=
  match Search.find [13, 10, 13, 10] p with
  | some i => some (i + 4)
  | none => (Search.find [10, 10] p).map (· + 2)

/-- `strtol` to base 10 on a terminated string. -/
def strtol (s : Bytes) : ℤ :=
  let s := s.dropWhile isSpace
  let negative := s.head? == some 45
  let digits := (if negative || s.head? == some 43 then s.drop 1 else s).takeWhile isDigit
  let n : ℕ := digits.foldl (fun n c => n * 10 + (c.toNat - 48)) 0
  if negative then max (-2 ^ 63) (-(n : ℤ)) else min (2 ^ 63 - 1) n

/-- A header line without its line end. -/
def stripCr (line : Bytes) : Bytes := if line.getLast? = some 13 then line.dropLast else line

/-- The loop of `content_length` at a line's start, with `n` header bytes to go. The number is
read from the buffer, past the line's end where the line gives no more than blanks. -/
def contentLengthLoop : ℕ → Bytes → ℕ → ℤ
  | 0, _, _ => 0
  | fuel + 1, p, n =>
      if n = 0 then 0
      else
        let line := (p.take n).takeWhile (· != 10)
        let text := stripCr line
        if 15 ≤ text.length ∧
            (text.take 15).map UInt8.toAsciiLower = lit "content-length:" then
          strtol (p.drop (15 + ((text.drop 15).takeWhile isSpace).length))
        else contentLengthLoop fuel (p.drop (line.length + 1)) (n - (line.length + 1))

def contentLength (b : Bytes) (n : ℕ) : ℤ := contentLengthLoop n b n

/-- The first line in the 512 bytes of `line`. -/
def requestLine (b : Bytes) : Bytes := cstr ((b.takeWhile (· != 10)).take 511)

/-- `%ns` of `sscanf`, with what it leaves. -/
def scanWord (n : ℕ) (s : Bytes) : Option (Bytes × Bytes) :=
  let s := s.dropWhile isSpace
  let word := (s.takeWhile fun c => !isSpace c).take n
  if word = [] then none else some (word, s.drop word.length)

/-- Method, and path without its query. -/
def methodAndPath (b : Bytes) : Option (Bytes × Bytes) :=
  match scanWord 7 (requestLine b) with
  | none => none
  | some (method, rest) =>
      match scanWord 255 rest with
      | none => none
      | some (path, _) => some (method, path.takeWhile (· != 63))

structure HttpRequest where
  method : Bytes
  path : Bytes
  body : Bytes
  deriving DecidableEq

def maxHeader : ℕ := 64 * 1024

def maxBody : ℕ := 64 * 1024 * 1024

section Recv
variable {fd fd' : Socket} {cap : ℕ}

theorem recv_interrupted (h : fd.recv cap = (none, fd')) :
    fd'.bytes = fd.bytes ∧ fd'.calls.length < fd.calls.length := by
  obtain ⟨bytes, calls⟩ := fd
  unfold Socket.recv at h
  match calls with
  | [] => cases h
  | none :: calls =>
    obtain rfl := (Prod.mk.inj h).2
    exact ⟨rfl, Nat.lt_succ_self _⟩
  | some n :: calls => cases h

/-- A call returns the next bytes, at most as many as were asked for, and some where there are
any. -/
theorem recv_got {tmp : Bytes} (hcap : 0 < cap) (h : fd.recv cap = (some tmp, fd')) :
    fd.bytes = tmp ++ fd'.bytes ∧ tmp.length ≤ cap ∧ (tmp = [] → fd.bytes = []) ∧
      fd'.calls.length ≤ fd.calls.length := by
  obtain ⟨bytes, calls⟩ := fd
  have key : ∀ (n : ℕ) (rest : List (Option ℕ)), 0 < n → n ≤ cap → rest.length ≤ calls.length →
      (some (bytes.take n), (⟨bytes.drop n, rest⟩ : Socket)) = (some tmp, fd') →
      bytes = tmp ++ fd'.bytes ∧ tmp.length ≤ cap ∧ (tmp = [] → bytes = []) ∧
        fd'.calls.length ≤ calls.length := by
    intro n rest hn hle hrest heq
    obtain ⟨htmp, rfl⟩ := Prod.mk.inj heq
    obtain rfl := Option.some.inj htmp
    refine ⟨(List.take_append_drop n bytes).symm, ?_, ?_, hrest⟩
    · exact (List.length_take_le _ _).trans hle
    · intro hempty
      exact (List.take_eq_nil_iff.mp hempty).resolve_left (by omega)
  unfold Socket.recv at h
  match calls with
  | [] => exact key cap [] hcap (le_refl _) (le_refl _) h
  | none :: calls => cases h
  | some n :: calls =>
    exact key _ calls (by omega) (min_le_right _ _) (Nat.le_succ _) h

end Recv

/-- The loop that reads on until the header's end is in the buffer: the buffer, the header's
length, and the socket behind it. -/
def readHeader (fd : Socket) (b : Bytes) : Option (Bytes × ℕ × Socket) :=
  if b.length < maxHeader then
    match _h : fd.recv 4096 with
    | (none, fd') => readHeader fd' b
    | (some [], _) => none
    | (some (c :: tmp), fd') =>
        match headerEnd (b ++ c :: tmp) with
        | some hend => some (b ++ c :: tmp, hend, fd')
        | none => readHeader fd' (b ++ c :: tmp)
  else none
termination_by fd.bytes.length + fd.calls.length
decreasing_by
  · have := recv_interrupted _h
    rw [this.1]
    omega
  · obtain ⟨hbytes, -, -, hcalls⟩ := recv_got (by norm_num) _h
    rw [hbytes, List.length_append, List.length_cons]
    omega

/-- The loop that reads on until the buffer holds `total` bytes. -/
def readBody (fd : Socket) (b : Bytes) (total : ℕ) : Option Bytes :=
  if b.length < total then
    match _h : fd.recv 8192 with
    | (none, fd') => readBody fd' b total
    | (some [], _) => none
    | (some (c :: tmp), fd') => readBody fd' (b ++ c :: tmp) total
  else some b
termination_by fd.bytes.length + fd.calls.length
decreasing_by
  · have := recv_interrupted _h
    rw [this.1]
    omega
  · obtain ⟨hbytes, -, -, hcalls⟩ := recv_got (by norm_num) _h
    rw [hbytes, List.length_append, List.length_cons]
    omega

/-- The request together with the header it was read from. -/
def readHttpRequest (fd : Socket) : Option (Bytes × HttpRequest) :=
  match readHeader fd [] with
  | none => none
  | some (b, hend, fd) =>
      match methodAndPath b with
      | none => none
      | some (method, path) =>
          let clen := contentLength b hend
          if clen < 0 ∨ maxBody < clen.toNat then none
          else
            match readBody fd b (hend + clen.toNat) with
            | none => none
            | some b =>
                some (b.take hend, { method, path, body := (b.drop hend).take clen.toNat })

end Ds4.Http
