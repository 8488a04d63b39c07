import Ds4.Chat.Turns

/-! A rendered history as a sequence of pieces, and the events a reader finds in it. -/
namespace Ds4.Chat
open Ds4.Dsml

/-- What a conversation is made of. Empty thoughts and empty answers are none. -/
inductive Event where
  | thought (text : Bytes)
  | user (text : Bytes)
  | output (text : Bytes)
  | answer (text : Bytes)
  | call (tc : ToolCall)
  deriving DecidableEq

/-- A stretch of the prompt: markup, or the text of events. A thought is a whole section
with its tags. -/
inductive Piece where
  | mark (text : Bytes)
  | thought (text : Bytes)
  | user (text : Bytes)
  | output (text : Bytes)
  | answer (text : Bytes)
  | calls (cs : ToolCalls)

def Piece.text : Piece → Bytes
  | .mark t => t
  | .thought t => thinkOpen ++ t ++ thinkClose
  | .user t => t
  | .output t => toolResultText t
  | .answer t => t
  | .calls cs => dsmlToolCallsText cs

def thoughtEvents (text : Bytes) : List Event := if text = [] then [] else [.thought text]

def answerEvents (text : Bytes) : List Event := if text = [] then [] else [.answer text]

def Piece.events : Piece → List Event
  | .mark _ => []
  | .thought t => thoughtEvents t
  | .user t => [.user t]
  | .output t => [.output t]
  | .answer t => answerEvents t
  | .calls cs => cs.v.map .call

def thoughtPieces (think shown : Bool) (reasoning : Bytes) : List Piece :=
  .mark assistantMark ::
    if think && shown then [.thought reasoning] else [.mark thinkClose]

/-- The pieces of one message, in the order they are written. -/
def msgPieces (think shown : Bool) (s : RenderState) (m : ChatMsg) : List Piece :=
  if roleIsSystem m.role then []
  else if m.role = lit "user" then [.mark userMark, .user m.content]
  else if roleIsTool m.role then
    [.mark ((if s.pendingToolResult then [] else userMark) ++ lit "<tool_result>"),
      .output m.content, .mark (lit "</tool_result>")]
  else if roleIsAssistant m.role then
    (if s.pendingAssistant then thoughtPieces think shown m.reasoning else []) ++
      [.answer m.content, .calls m.calls, .mark endOfSentence]
  else []

def historyPieces (think : Bool) (shown : ℕ → Bool) : ℕ → List ChatMsg → RenderState → List Piece
  | _, [], _ => []
  | i, m :: ms, s =>
      msgPieces think (shown i) s m ++
        historyPieces think shown (i + 1) ms (renderMsg think (shown i) s m)

theorem msgPieces_text (think shown : Bool) (s : RenderState) (m : ChatMsg) :
    (renderMsg think shown s m).out = s.out ++ (msgPieces think shown s m).flatMap Piece.text := by
  have hthought : ∀ r, (thoughtPieces think shown r).flatMap Piece.text =
      assistantMark ++ thinkText think shown r := by
    intro r
    cases think <;> cases shown <;> simp [thoughtPieces, thinkText, Piece.text]
  unfold renderMsg msgPieces
  split_ifs <;> simp [Piece.text, hthought]

/-- The pieces are the rendered text. -/
theorem historyPieces_text (think : Bool) (shown : ℕ → Bool) (i : ℕ) (ms : List ChatMsg)
    (s : RenderState) :
    (renderMsgs think shown i ms s).out =
      s.out ++ (historyPieces think shown i ms s).flatMap Piece.text := by
  induction ms generalizing i s with
  | nil => simp [renderMsgs, historyPieces]
  | cons m ms ih =>
    rw [renderMsgs, ih, msgPieces_text, historyPieces, List.flatMap_append, List.append_assoc]

/-- The events of one message whose thoughts are kept, behind an open user turn or not. -/
def msgEvents (pending : Bool) (m : ChatMsg) : List Event :=
  if m.role = lit "user" then [.user m.content]
  else if roleIsTool m.role then [.output m.content]
  else if roleIsAssistant m.role then
    (if pending then thoughtEvents m.reasoning else []) ++
      (answerEvents m.content ++ m.calls.v.map .call)
  else []

def histEvents : Bool → List ChatMsg → List Event
  | _, [] => []
  | p, m :: ms => msgEvents p m ++ histEvents (nextPending p m) ms

theorem msgPieces_events (s : RenderState) (m : ChatMsg) :
    (msgPieces true true s m).flatMap Piece.events = msgEvents s.pendingAssistant m := by
  unfold msgPieces msgEvents
  by_cases hs : roleIsSystem m.role
  · have hl := not_userLike_of_system hs
    have huser : ¬ m.role = lit "user" := fun h => by simp [userLike_of_user h] at hl
    have htool : ¬ roleIsTool m.role = true := fun h => by simp [userLike_of_tool h] at hl
    simp [hs, huser, htool, not_assistant_of_system hs]
  · rw [if_neg hs]
    split_ifs <;> simp [Piece.events, thoughtPieces]

theorem historyPieces_events (i : ℕ) (ms : List ChatMsg) (s : RenderState) :
    (historyPieces true (fun _ => true) i ms s).flatMap Piece.events =
      histEvents s.pendingAssistant ms := by
  induction ms generalizing i s with
  | nil => rfl
  | cons m ms ih =>
    rw [historyPieces, List.flatMap_append, msgPieces_events, ih, renderMsg_pending, histEvents]

theorem histEvents_append (p : Bool) (xs ys : List ChatMsg) :
    histEvents p (xs ++ ys) = histEvents p xs ++ histEvents (pendingAfter p xs) ys := by
  induction xs generalizing p with
  | nil => rfl
  | cons m xs ih =>
    rw [List.cons_append, histEvents, histEvents, ih, List.append_assoc]
    rfl

theorem pendingAfter_concat (p : Bool) (ms : List ChatMsg) (m : ChatMsg) :
    pendingAfter p (ms ++ [m]) = nextPending (pendingAfter p ms) m := by
  simp [pendingAfter, List.foldl_append]

theorem histEvents_concat (p : Bool) (ms : List ChatMsg) (m : ChatMsg) :
    histEvents p (ms ++ [m]) = histEvents p ms ++ msgEvents (pendingAfter p ms) m := by
  rw [histEvents_append, histEvents, histEvents, List.append_nil]

section Order

def Event.isThought : Event → Bool
  | .thought _ => true
  | _ => false

def Event.isUserLike : Event → Bool
  | .user _ => true
  | .output _ => true
  | _ => false

/-- Every thought stands directly behind a user or tool event; `prev` says this of the
event in front. -/
def behindUser : Bool → List Event → Bool
  | _, [] => true
  | prev, e :: es => (!e.isThought || prev) && behindUser e.isUserLike es

def lastUserLike (prev : Bool) (es : List Event) : Bool := es.foldl (fun _ e => e.isUserLike) prev

def thoughtCount (es : List Event) : ℕ := es.countP Event.isThought

theorem behindUser_append (prev : Bool) (xs ys : List Event) :
    behindUser prev (xs ++ ys) = (behindUser prev xs && behindUser (lastUserLike prev xs) ys) := by
  induction xs generalizing prev with
  | nil => simp [behindUser, lastUserLike]
  | cons e xs ih =>
    rw [List.cons_append, behindUser, behindUser, ih, Bool.and_assoc]
    rfl

theorem lastUserLike_append (prev : Bool) (xs ys : List Event) :
    lastUserLike prev (xs ++ ys) = lastUserLike (lastUserLike prev xs) ys := by
  simp [lastUserLike, List.foldl_append]

theorem thoughtCount_append (xs ys : List Event) :
    thoughtCount (xs ++ ys) = thoughtCount xs + thoughtCount ys := by
  simp [thoughtCount]

end Order

end Ds4.Chat
