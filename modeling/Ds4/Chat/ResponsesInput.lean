import Ds4.Chat.Turns

/-! The `input` array of a Responses request, collapsed into chat messages. -/
namespace Ds4.Chat
open Ds4.Dsml

/-- A tool list carried by an item: its text, and the schemas read from it if it is well
formed. -/
structure ToolList where
  raw : Bytes
  schemas : Option Bytes

/-- The fields of one item object; an absent field is `none`. -/
structure InputItem where
  type : Option Bytes := none
  role : Option Bytes := none
  content : Option Bytes := none
  name : Option Bytes := none
  nameSpace : Option Bytes := none
  arguments : Option Bytes := none
  output : Option Bytes := none
  input : Option Bytes := none
  summary : Option Bytes := none
  action : Option Bytes := none
  result : Option Bytes := none
  tools : Option ToolList := none
  status : Option Bytes := none

/-- What an accepted item is to the parser. -/
inductive Item where
  | message (role content : Bytes)
  | call (tc : ToolCall)
  | output (content loaded : Bytes)
  | reasoning (summary content : Bytes)
  | bookkeeping
  deriving DecidableEq

namespace InputItem
variable (it : InputItem)

def itemType : Bytes := it.type.getD (lit "message")

def isFunctionCall : Bool :=
  it.itemType == lit "function_call" || it.itemType == lit "custom_tool_call"

def isCallOutput : Bool :=
  it.itemType == lit "function_call_output" || it.itemType == lit "custom_tool_call_output"

def isHostedCall : Bool :=
  it.itemType == lit "local_shell_call" || it.itemType == lit "web_search_call" ||
    it.itemType == lit "tool_search_call" || it.itemType == lit "image_generation_call"

def isHostedOutput : Bool :=
  it.itemType == lit "local_shell_call_output" || it.itemType == lit "web_search_call_output" ||
    it.itemType == lit "tool_search_output" || it.itemType == lit "tool_search_call_output" ||
    it.itemType == lit "image_generation_call_output"

def isBookkeeping : Bool :=
  it.itemType == lit "compaction" || it.itemType == lit "context_compaction"

/-- A replayed item has to be finished. -/
def isUnfinished : Bool :=
  it.status.getD [] != [] && it.status.getD [] != lit "completed"

def functionCall : ToolCall where
  name :=
    if it.itemType ≠ lit "custom_tool_call" ∧ it.nameSpace.getD [] ≠ [] ∧ it.name.getD [] ≠ [] then
      it.nameSpace.getD [] ++ it.name.getD []
    else it.name.getD []
  arguments := (it.arguments.or it.input).getD (lit "\x7b\x7d")

def hostedCall : ToolCall where
  name :=
    if it.itemType = lit "tool_search_call" then lit "tool_search"
    else if it.itemType = lit "local_shell_call" then lit "local_shell"
    else it.itemType
  arguments := ((it.action.or it.arguments).or it.input).getD (lit "\x7b\x7d")

def hostedBody : Bytes :=
  ((it.output.or it.result).or (it.tools.map ToolList.raw)).getD []

/-- The schemas that a `tool_search_output` brings; a malformed list is an error. -/
def loadedSchemas : Option Bytes :=
  match it.tools with
  | some tools => if it.itemType = lit "tool_search_output" then tools.schemas else some []
  | none => some []

/-- The branch of `parse_responses_input` that takes the item. Types without one fail. -/
def item : Option Item :=
  if it.isUnfinished then none
  else if it.itemType = lit "message" then
    some (.message (it.role.getD (lit "user")) (it.content.getD []))
  else if it.isFunctionCall then some (.call it.functionCall)
  else if it.isCallOutput then some (.output (it.output.getD []) [])
  else if it.itemType = lit "reasoning" then
    some (.reasoning (it.summary.getD []) (it.content.getD []))
  else if it.isHostedCall then some (.call it.hostedCall)
  else if it.isHostedOutput then it.loadedSchemas.map (.output it.hostedBody)
  else if it.isBookkeeping then some .bookkeeping
  else none

end InputItem

structure InputState where
  msgs : List ChatMsg
  pendingReasoning : Bytes
  loadedToolSchemas : Bytes

/-- A message without reasoning and calls. -/
def plainMsg (role content : Bytes) : ChatMsg := ⟨role, content, [], ⟨[], none⟩⟩

/-- An assistant message made for the pending reasoning alone. -/
def flushMsg (reasoning : Bytes) : ChatMsg := ⟨lit "assistant", [], reasoning, ⟨[], none⟩⟩

def pushCall (m : ChatMsg) (tc : ToolCall) : ChatMsg :=
  { m with calls := { m.calls with v := m.calls.v ++ [tc] } }

/-- Texts joined by a separator where both are there. -/
def joinText (sep text part : Bytes) : Bytes :=
  if part = [] then text else if text = [] then part else text ++ sep ++ part

def Item.consumesReasoning : Item → Bool
  | .message role _ => roleIsAssistant role
  | .call _ => true
  | _ => false

/-- Reasoning in front of an item that cannot carry it becomes a message of its own. -/
def flushReasoning (st : InputState) (it : Item) : InputState :=
  if it.consumesReasoning = false ∧ it ≠ .bookkeeping ∧ st.pendingReasoning ≠ [] then
    { st with msgs := st.msgs ++ [flushMsg st.pendingReasoning], pendingReasoning := [] }
  else st

/-- A call joins the assistant message right before it, which takes the pending reasoning
only if it has none. -/
def addCall (st : InputState) (tc : ToolCall) : InputState :=
  match st.msgs.getLast? with
  | some last =>
      if roleIsAssistant last.role then
        if st.pendingReasoning ≠ [] ∧ last.reasoning = [] then
          { st with
            msgs := st.msgs.dropLast ++ [pushCall { last with reasoning := st.pendingReasoning } tc]
            pendingReasoning := [] }
        else { st with msgs := st.msgs.dropLast ++ [pushCall last tc] }
      else
        { st with
          msgs := st.msgs ++ [pushCall (flushMsg st.pendingReasoning) tc], pendingReasoning := [] }
  | none =>
      { st with
        msgs := st.msgs ++ [pushCall (flushMsg st.pendingReasoning) tc], pendingReasoning := [] }

def addMessage (st : InputState) (role content : Bytes) : InputState :=
  if roleIsAssistant role then
    { st with
      msgs := st.msgs ++ [{ plainMsg role content with reasoning := st.pendingReasoning }]
      pendingReasoning := [] }
  else { st with msgs := st.msgs ++ [plainMsg role content] }

def addOutput (st : InputState) (content loaded : Bytes) : InputState :=
  { st with
    msgs := st.msgs ++ [plainMsg (lit "tool") content]
    loadedToolSchemas := joinText (lit "\n") st.loadedToolSchemas loaded }

def addReasoning (st : InputState) (summary content : Bytes) : InputState :=
  { st with
    pendingReasoning :=
      joinText (lit "\n") (joinText (lit "\n") st.pendingReasoning summary) content }

def stepItem (st : InputState) (it : Item) : InputState :=
  match it with
  | .message role content => addMessage (flushReasoning st it) role content
  | .call tc => addCall (flushReasoning st it) tc
  | .output content loaded => addOutput (flushReasoning st it) content loaded
  | .reasoning summary content => addReasoning (flushReasoning st it) summary content
  | .bookkeeping => flushReasoning st it

def startInput : InputState := ⟨[], [], []⟩

/-- Trailing reasoning gets an empty assistant message. -/
def finishInput (st : InputState) : InputState :=
  if st.pendingReasoning ≠ [] then
    { st with msgs := st.msgs ++ [flushMsg st.pendingReasoning], pendingReasoning := [] }
  else st

def parseResponsesInput (items : List InputItem) : Option InputState :=
  (items.mapM InputItem.item).map fun its => finishInput (its.foldl stepItem startInput)

/-- `instructions` come in front as a system message. -/
def withInstructions (instructions : Bytes) (msgs : List ChatMsg) : List ChatMsg :=
  if instructions = [] then msgs else plainMsg (lit "system") instructions :: msgs

/-- The prompt of a Responses request whose tools are active. -/
def responsesPrompt (instructions toolSchemas : Bytes) (mode : ThinkMode) (st : InputState) :
    Bytes :=
  renderChatPromptText (withInstructions instructions st.msgs)
    (joinText (lit "\n") toolSchemas st.loadedToolSchemas) mode

end Ds4.Chat
