import Ds4.Chat.Render
import Ds4.Dsml.Syntax
import Ds4.Stream.Window

/-! The tool markers of a chat run: each token is looked at with the end of the text before it,
where the text is not in thinking. -/
namespace Ds4.Stream
open Ds4.Search

def toolStarts : List Bytes := Dsml.dsmlSyntaxes.map fun syn => syn.toolCallsStart

def toolEnds : List Bytes := Dsml.dsmlSyntaxes.map fun syn => syn.toolCallsEnd

def findAnyToolStart (s : Bytes) : Option ℕ := (firstOf toolStarts (cstr s)).map Prod.fst

def findAnyToolEnd (s : Bytes) : Option ℕ := (firstOf toolEnds (cstr s)).map Prod.fst

/-- What `observe_tool_markers` has seen. -/
structure MarkersSeen where
  start : Bool
  stop : Bool
  orphan : Bool
  deriving DecidableEq

def observeToolMarkers (scan : Bytes) (seen : MarkersSeen) : MarkersSeen :=
  let start := findAnyToolStart scan
  let endScan := if seen.start then some scan else start.map fun p => scan.drop p
  let stop := endScan.bind findAnyToolEnd
  { start := seen.start || start.isSome
    stop := seen.stop || stop.isSome
    orphan := seen.orphan ||
      (stop.isNone && !seen.start && start.isNone && (findAnyToolEnd scan).isSome) }

/-- `thinking_state`; its tail is long enough for the closing tag. -/
structure ThinkingState where
  inside : Bool
  tail : Bytes
  tail_le : tail.length ≤ 8

namespace ThinkingState

def init (inside : Bool) : ThinkingState := ⟨inside, [], Nat.zero_le 8⟩

def push (tail : Bytes) (c : UInt8) : Bytes := (if tail.length = 8 then tail.tail else tail) ++ [c]

theorem push_le {tail : Bytes} (h : tail.length ≤ 8) (c : UInt8) : (push tail c).length ≤ 8 := by
  unfold push
  split_ifs with hfull
  · rw [List.length_append, List.length_tail, List.length_singleton]
    omega
  · rw [List.length_append, List.length_singleton]
    omega

def byte (st : ThinkingState) (c : UInt8) : ThinkingState where
  inside :=
    if Chat.thinkOpen <:+ push st.tail c then true
    else if Chat.thinkClose <:+ push st.tail c then false
    else st.inside
  tail := push st.tail c
  tail_le := push_le st.tail_le c

/-- `thinking_state_feed`. -/
def feed (st : ThinkingState) (p : Bytes) : ThinkingState := p.foldl byte st

/-- `thinking_state_from_prompt`. -/
def fromPrompt (promptText : Option Bytes) (thinkEnabled : Bool) : ThinkingState :=
  match promptText with
  | some text => feed (init false) (cstr text)
  | none => init thinkEnabled

end ThinkingState

/-- What the token loop carries from token to token. -/
structure MarkerState where
  text : Bytes
  thinking : ThinkingState
  waiting : Bool
  scanFrom : ℕ
  seen : MarkersSeen

namespace MarkerState

/-- Before the first token. -/
def init (gates : Bool) (thinking : ThinkingState) : MarkerState :=
  ⟨[], thinking, gates && thinking.inside, 0, ⟨false, false, false⟩⟩

/-- `marker_hold`. -/
def markerHold : ℕ := 80

/-- Behind the last closing tag, or behind everything. -/
def behindThinking (text : Bytes) : ℕ :=
  match findLast Chat.thinkClose (cstr text) with
  | some p => min (p + 8) text.length
  | none => text.length

/-- One token of the loop; a block that has ended ends the run. -/
def token (gates : Bool) (st : MarkerState) (piece : Bytes) : MarkerState :=
  if st.seen.stop then st
  else
    let text := st.text ++ piece
    let thinking := st.thinking.feed piece
    if gates && thinking.inside then
      { text := text
        thinking := thinking
        waiting := true
        scanFrom := text.length
        seen := st.seen }
    else
      let scanFrom := min (if st.waiting then behindThinking text else st.scanFrom) text.length
      { text := text
        thinking := thinking
        waiting := false
        scanFrom := max scanFrom (text.length - markerHold)
        seen := observeToolMarkers (text.drop scanFrom) st.seen }

def run (gates : Bool) (thinking : ThinkingState) (pieces : List Bytes) : MarkerState :=
  pieces.foldl (token gates) (init gates thinking)

end MarkerState

end Ds4.Stream
