import Ds4.Dsml.Render

/-! The prompt text of a chat history, and the tail that continues a live session. -/
namespace Ds4.Chat
open Ds4.Dsml Ds4.Search

inductive ThinkMode where
  | none | high | max
  deriving DecidableEq

def thinkModeEnabled (mode : ThinkMode) : Bool := mode == .high || mode == .max

def thinkMaxPrefix : Bytes := lit <|
  "Reasoning Effort: Absolute maximum with no shortcuts permitted.\n" ++
  "You MUST be very thorough in your thinking and comprehensively decompose the problem to " ++
  "resolve the root cause, rigorously stress-testing your logic against all potential paths, " ++
  "edge cases, and adversarial scenarios.\n" ++
  "Explicitly write out your entire deliberation process, documenting every intermediate step, " ++
  "considered alternative, and rejected hypothesis to ensure absolutely no assumption is left " ++
  "unchecked.\n\n"

/-- One message of the history. A null pointer reads as the empty string. -/
structure ChatMsg where
  role : Bytes
  content : Bytes
  reasoning : Bytes
  calls : ToolCalls
  deriving DecidableEq

def beginOfSentence : Bytes := lit "<｜begin▁of▁sentence｜>"
def endOfSentence : Bytes := lit "<｜end▁of▁sentence｜>"
def userMark : Bytes := lit "<｜User｜>"
def assistantMark : Bytes := lit "<｜Assistant｜>"
def thinkOpen : Bytes := lit "<think>"
def thinkClose : Bytes := lit "</think>"

def roleIsSystem (role : Bytes) : Bool := role == lit "system" || role == lit "developer"

def roleIsTool (role : Bytes) : Bool := role == lit "tool" || role == lit "function"

def roleIsUserLike (role : Bytes) : Bool := role == lit "user" || roleIsTool role

def roleIsAssistant (role : Bytes) : Bool := role == lit "assistant"

/-- What one message contributes to `chat_history_uses_tool_context`. -/
def msgUsesTools (m : ChatMsg) : Bool :=
  (roleIsAssistant m.role && decide (m.calls.v ≠ [])) || roleIsTool m.role

def chatHistoryUsesToolContext (msgs : List ChatMsg) (toolSchemas : Bytes) : Bool :=
  decide (toolSchemas ≠ []) || msgs.any msgUsesTools

/-- `append_tool_result_text`. -/
def toolResultText (s : Bytes) : Bytes := guarded (lit "</tool_result>") (lit "&lt;") s

/-- `append_tools_prompt_text`. -/
def toolsPromptText (toolSchemas : Bytes) : Bytes :=
  if toolSchemas = [] then []
  else
    lit ("## Tools\n\n" ++
      "You have access to a set of tools to help answer the user question. " ++
      "You can invoke tools by writing a \"<｜DSML｜tool_calls>\" block like the following:\n\n" ++
      "<｜DSML｜tool_calls>\n" ++
      "<｜DSML｜invoke name=\"$TOOL_NAME\">\n" ++
      "<｜DSML｜parameter name=\"$PARAMETER_NAME\" " ++
      "string=\"true|false\">$PARAMETER_VALUE</｜DSML｜parameter>\n" ++
      "...\n" ++
      "</｜DSML｜invoke>\n" ++
      "<｜DSML｜invoke name=\"$TOOL_NAME2\">\n" ++
      "...\n" ++
      "</｜DSML｜invoke>\n" ++
      "</｜DSML｜tool_calls>\n\n" ++
      "String parameters should be specified as raw text and set `string=\"true\"`. " ++
      "Preserve characters such as `>`, `&`, and `&&` exactly; never replace normal string " ++
      "characters with XML or HTML entity escapes. " ++
      "Only if a string value itself contains the exact closing parameter tag " ++
      "`</｜DSML｜parameter>`, write that tag as `&lt;/｜DSML｜parameter>` inside the value. " ++
      "For all other types (numbers, booleans, arrays, objects), pass the value in JSON format " ++
      "and set `string=\"false\"`.\n\n" ++
      "If thinking_mode is enabled (triggered by <think>), you MUST output your complete " ++
      "reasoning inside <think>...</think> BEFORE any tool calls or final response.\n\n" ++
      "Otherwise, output directly after </think> with tool calls or final response.\n\n" ++
      "### Available Tool Schemas\n\n") ++
    toolSchemas ++
    lit ("\n\nYou MUST strictly follow the above defined tool name and parameter schemas " ++
      "to invoke tool calls. Use the exact parameter names from the schemas.")

/-- The system part: the tool schemas, then the system messages wherever they stand. -/
def systemText (msgs : List ChatMsg) (toolSchemas : Bytes) : Bytes :=
  (msgs.filter fun m => roleIsSystem m.role).foldl
    (fun system m => system ++ (if system = [] then [] else lit "\n\n") ++ m.content)
    (toolsPromptText toolSchemas)

def lastUserLoop : ℤ → ℤ → List ChatMsg → ℤ
  | _, last, [] => last
  | i, last, m :: ms => lastUserLoop (i + 1) (if roleIsUserLike m.role then i else last) ms

def lastUserIdx (msgs : List ChatMsg) : ℤ := lastUserLoop 0 (-1) msgs

/-- The output buffer and the two flags of the render loops. -/
@[ext]
structure RenderState where
  out : Bytes
  pendingAssistant : Bool
  pendingToolResult : Bool
  deriving DecidableEq

/-- The thought section of an assistant turn behind a user turn. -/
def thinkText (think shown : Bool) (reasoning : Bytes) : Bytes :=
  if think then
    if shown then thinkOpen ++ reasoning ++ thinkClose else thinkClose
  else thinkClose

/-- One round of the render loops. A message of an unknown role leaves no trace. -/
def renderMsg (think shown : Bool) (s : RenderState) (m : ChatMsg) : RenderState :=
  if roleIsSystem m.role then s
  else if m.role = lit "user" then ⟨s.out ++ (userMark ++ m.content), true, false⟩
  else if roleIsTool m.role then
    ⟨s.out ++ ((if s.pendingToolResult then [] else userMark) ++ lit "<tool_result>" ++
      toolResultText m.content ++ lit "</tool_result>"), true, true⟩
  else if roleIsAssistant m.role then
    ⟨s.out ++ ((if s.pendingAssistant then assistantMark ++ thinkText think shown m.reasoning
      else []) ++ m.content ++ dsmlToolCallsText m.calls ++ endOfSentence), false, false⟩
  else s

/-- The render loop from message `i` on; `shown` says which thoughts are written out. -/
def renderMsgs (think : Bool) (shown : ℕ → Bool) : ℕ → List ChatMsg → RenderState → RenderState
  | _, [], s => s
  | i, m :: ms, s => renderMsgs think shown (i + 1) ms (renderMsg think (shown i) s m)

/-- The prefix of the turn to generate, behind an open user turn. -/
def openTurn (think : Bool) : Bytes := assistantMark ++ if think then thinkOpen else thinkClose

def renderEnd (think : Bool) (s : RenderState) : Bytes :=
  s.out ++ if s.pendingAssistant then openTurn think else []

/-- What stands before the first turn. -/
def promptHead (msgs : List ChatMsg) (toolSchemas : Bytes) (mode : ThinkMode) : Bytes :=
  beginOfSentence ++ (if mode = .max then thinkMaxPrefix else []) ++ systemText msgs toolSchemas

/-- Whether the thoughts of message `i` are kept in a full rendering. -/
def keepsReasoning (msgs : List ChatMsg) (toolSchemas : Bytes) (i : ℕ) : Bool :=
  chatHistoryUsesToolContext msgs toolSchemas || decide (lastUserIdx msgs < i)

def renderChatPromptText (msgs : List ChatMsg) (toolSchemas : Bytes) (mode : ThinkMode) : Bytes :=
  renderEnd (thinkModeEnabled mode) <|
    renderMsgs (thinkModeEnabled mode) (keepsReasoning msgs toolSchemas) 0 msgs
      ⟨promptHead msgs toolSchemas mode, false, false⟩

def renderLiveToolTail (msgs : List ChatMsg) (start : ℕ) (mode : ThinkMode) : Bytes :=
  renderEnd (thinkModeEnabled mode) <|
    renderMsgs (thinkModeEnabled mode) (fun _ => true) start (msgs.drop start)
      ⟨endOfSentence, false, false⟩

end Ds4.Chat
