import Ds4.Bytes.Ascii
import Ds4.Stream.Window

/-! Stop sequences of a streamed completion: what is held back, and what is sent. -/
namespace Ds4.Stream
open Ds4.Search

/-- `stop_list`, with the length of its longest stop. -/
structure StopList where
  v : List Bytes
  maxLen : ℕ
  texts : ∀ s ∈ v, s ≠ [] ∧ 0 ∉ s
  maxLen_eq : maxLen = (v.map List.length).foldl max 0

namespace StopList

def clear : StopList := ⟨[], 0, by simp, rfl⟩

theorem push_texts (stops : StopList) {s : Bytes} (h : cstr s ≠ []) :
    ∀ t ∈ stops.v ++ [cstr s], t ≠ [] ∧ 0 ∉ t := by
  intro t ht
  rcases List.mem_append.1 ht with ht | ht
  · exact stops.texts t ht
  · rw [List.mem_singleton.1 ht]
    exact ⟨h, zero_not_mem_cstr s⟩

theorem push_maxLen (stops : StopList) (s : Bytes) : max stops.maxLen (cstr s).length =
    ((stops.v ++ [cstr s]).map List.length).foldl max 0 := by
  rw [List.map_append, List.foldl_append, ← stops.maxLen_eq]
  rfl

/-- `stop_list_push`. -/
def push (stops : StopList) (s : Bytes) : StopList :=
  if h : cstr s = [] then stops
  else ⟨stops.v ++ [cstr s], max stops.maxLen (cstr s).length, stops.push_texts h,
    stops.push_maxLen s⟩

variable (stops : StopList)

/-- `stop_list_find_from`. -/
def findFrom (text : Bytes) (start : ℕ) : Option (ℕ × ℕ) :=
  (firstOf stops.v (cstr (text.drop start))).map fun r => (r.1 + start, r.2.length)

/-- `stop_list_stream_safe_len`. -/
def streamSafeLen (textLen : ℕ) : ℕ :=
  if stops.v = [] ∨ stops.maxLen ≤ 1 then textLen
  else
    let hold := stops.maxLen - 1
    if hold < textLen then textLen - hold else 0

end StopList

def utf8ExpectedLen (c : UInt8) : ℕ :=
  if c < 0x80 then 1
  else if 0xc2 ≤ c ∧ c ≤ 0xdf then 2
  else if 0xe0 ≤ c ∧ c ≤ 0xef then 3
  else if 0xf0 ≤ c ∧ c ≤ 0xf4 then 4
  else 1

def isContinuation (c : UInt8) : Bool := c &&& 0xc0 == 0x80

/-- Back over the continuation bytes before `p`. -/
def skipContinuation (s : Bytes) (start : ℕ) : ℕ → ℕ → ℕ
  | 0, p => p
  | rounds + 1, p =>
      if start < p ∧ isContinuation (s.getD (p - 1) 0) then skipContinuation s start rounds (p - 1)
      else p

/-- `utf8_stream_safe_len`: a character that is not complete is held back. -/
def utf8StreamSafeLen (s : Bytes) (start limit : ℕ) (final : Bool) : ℕ :=
  if final ∨ limit ≤ start then limit
  else
    let p := skipContinuation s start 4 limit
    if p = limit then
      if 1 < utf8ExpectedLen (s.getD (limit - 1) 0) then limit - 1 else limit
    else if p = start ∧ isContinuation (s.getD p 0) then start
    else
      let lead := p - 1
      if limit - lead < utf8ExpectedLen (s.getD lead 0) then lead else limit

/-- The text of a run, how far it was sent, and the stop that ended it. -/
structure StreamState where
  text : Bytes
  plainStreamPos : ℕ
  stopScanFrom : ℕ
  deltas : List Bytes
  hit : Option (ℕ × ℕ)

namespace StreamState

def init : StreamState := ⟨[], 0, 0, [], none⟩

variable (stops : StopList) (st : StreamState)

/-- The text up to `limit` is sent, if there is more than before. -/
def emit (limit : ℕ) : StreamState :=
  if st.plainStreamPos < limit then
    { st with
      deltas := st.deltas ++ [cstr ((st.text.take limit).drop st.plainStreamPos)]
      plainStreamPos := limit }
  else st

/-- One token in the loop of `generate_job`; behind a stop there are no more. -/
def token (piece : Bytes) : StreamState :=
  if st.hit.isSome then st
  else
    let text := st.text ++ piece
    let hit := stops.findFrom text st.stopScanFrom
    let safe := match hit with
      | some stop => stop.1
      | none => stops.streamSafeLen text.length
    let streamLen := utf8StreamSafeLen text st.plainStreamPos (min safe text.length) hit.isSome
    let scanFrom :=
      if hit.isNone ∧ 1 < stops.maxLen then text.length - (stops.maxLen - 1)
      else st.stopScanFrom
    let sent := emit { st with text := text, stopScanFrom := scanFrom, hit := hit } streamLen
    match hit with
    | some stop => { sent with text := text.take stop.1 }
    | none => sent

/-- The rest goes out when the loop has ended. -/
def flush : StreamState := st.emit st.text.length

def run (pieces : List Bytes) : StreamState := pieces.foldl (token stops) init

end StreamState

end Ds4.Stream
