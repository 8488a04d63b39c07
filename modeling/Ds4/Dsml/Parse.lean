import Ds4.Dsml.Render

/-! The parser of generated messages: reasoning, content and tool calls of a finished
text. -/
namespace Ds4.Dsml
open Ds4.Search Ds4.Json

structure ParsedMessage where
  content : Bytes
  reasoning : Option Bytes
  calls : ToolCalls
  deriving DecidableEq

def splitReasoningContent (s : Bytes) : Bytes × Option Bytes :=
  let body := if lit "<think>" <+: s then s.drop 7 else s
  match find (lit "</think>") body with
  | some i => (body.drop (i + 8), some (body.take i))
  | none => (s, none)

def trimToolSeparatorWs (raw : Bytes) : Bytes := (raw.reverse.dropWhile isSpace).reverse

def orNull : Bytes → Bytes
  | [] => lit "null"
  | m => m

def toolCallJsonArgsAdd (args name value : Bytes) (isString : Option Bytes) : Bytes :=
  args ++ (if args = [] then [] else lit ", ") ++ jsonEscape name ++ lit ": " ++
    if isString = some (lit "true") then jsonEscape value else orNull (jsonMinifyRawValue value)

/-- A tag up to its first `>`, and the text behind it. -/
def splitTag (p : Bytes) : Option (Bytes × Bytes) :=
  (find [62] p).map fun i => (p.take (i + 1), p.drop (i + 1))

/-- The text before the first closing tag, and the text behind it. -/
def splitValue (paramEnd p : Bytes) : Option (Bytes × Bytes) :=
  (find paramEnd p).map fun i => (p.take i, p.drop (i + paramEnd.length))

/-- A parameter body as `tool_call_json_args_add` receives it; without a `string`
attribute it is text. -/
def addParam (args name raw : Bytes) (isString : Option Bytes) : Bytes :=
  let type := isString.getD (lit "true")
  toolCallJsonArgsAdd args name
    (if type = lit "true" then dsmlUnescapeText raw else raw) (some type)

section Parameters
variable (syn : DsmlSyntax)

def dsmlParseLeafParamJson (p out : Bytes) : Option (Bytes × Bytes) :=
  if syn.paramStart <+: p then
    match splitTag p with
    | none => none
    | some (tag, r) =>
        match dsmlAttr tag (lit "name"), splitValue syn.paramEnd r with
        | some name,
            some (raw, r') => some (addParam out name raw (dsmlAttr tag (lit "string")), r')
        | _, _ => none
  else none

/-- The loop of `dsml_parse_nested_params_object`. -/
def nestedParamsLoop : ℕ → Bytes → Bytes → Option (Bytes × Bytes)
  | 0, _, _ => none
  | n + 1, p, members =>
      let p := skipAsciiWs p
      if syn.paramStart <+: p then
        match dsmlParseLeafParamJson syn p members with
        | none => none
        | some (members, r) => nestedParamsLoop n r members
      else some (members, p)

def dsmlParseNestedParamsObject (p : Bytes) : Option (Bytes × Bytes) :=
  if syn.paramStart <+: skipAsciiWs p then
    (nestedParamsLoop syn (p.length + 1) p []).map fun q => (123 :: (q.1 ++ [125]), q.2)
  else none

/-- The parameters of one invoke up to its end tag, appended to `args`. -/
def parseParams : ℕ → Bytes → Bytes → Option (Bytes × Bytes)
  | 0, _, _ => none
  | n + 1, p, args =>
      let p := skipAsciiWs p
      if syn.invokeEnd <+: p then some (args, p.drop syn.invokeEnd.length)
      else if syn.paramStart <+: p then
        match splitTag p with
        | none => none
        | some (tag, r) =>
            match dsmlAttr tag (lit "name") with
            | none => none
            | some name =>
                let isString := dsmlAttr tag (lit "string")
                if isString = none ∧ syn.paramStart <+: skipAsciiWs r then
                  match dsmlParseNestedParamsObject syn r with
                  | none => none
                  | some (nested, r') =>
                      let p' := skipAsciiWs r'
                      parseParams n
                        (if syn.paramEnd <+: p' then p'.drop syn.paramEnd.length else p')
                        (toolCallJsonArgsAdd args name nested (some (lit "false")))
                else
                  match splitValue syn.paramEnd r with
                  | none => none
                  | some (raw, r') => parseParams n r' (addParam args name raw isString)
      else none

/-- The invokes of one block up to its end tag. -/
def parseInvokes : ℕ → Bytes → Option (List ToolCall × Bytes)
  | 0, _ => none
  | n + 1, p =>
      let p := skipAsciiWs p
      if syn.toolCallsEnd <+: p then some ([], p.drop syn.toolCallsEnd.length)
      else if syn.invokeStart <+: p then
        match splitTag p with
        | none => none
        | some (tag, r) =>
            match dsmlAttr tag (lit "name") with
            | none => none
            | some name =>
                match parseParams syn (r.length + 1) r [] with
                | none => none
                | some (args, r') =>
                    (parseInvokes n r').map fun q =>
                      (ToolCall.mk name (123 :: (args ++ [125])) :: q.1, q.2)
      else none

end Parameters

/-- The markers of a tool block in the order the parser looks for them. -/
def startMarkers : List (Bytes × DsmlSyntax) :=
  dsmlSyntaxes.flatMap fun syn =>
    [(lit "\n\n" ++ syn.toolCallsStart, syn), (syn.toolCallsStart, syn)]

def findToolCalls (s : Bytes) : Option (ℕ × DsmlSyntax) :=
  startMarkers.findSome? fun m => (find m.1 s).map fun i => (i, m.2)

/-- `parse_generated_message_ex`; `none` is a malformed tool block. -/
def parseGeneratedMessageEx (text : Bytes) (requireThinkingClosed : Bool) :
    Option ParsedMessage :=
  let plain : ParsedMessage :=
    ⟨(splitReasoningContent text).1, (splitReasoningContent text).2, ⟨[], none⟩⟩
  let search :=
    if requireThinkingClosed then (findLast (lit "</think>") text).map (· + 8) else some 0
  match search with
  | none => some plain
  | some from_ =>
      match findToolCalls (text.drop from_) with
      | none => some plain
      | some (i, syn) =>
          let block := text.drop (from_ + i)
          match find syn.toolCallsStart block with
          | none => none
          | some k =>
              let body := block.drop (k + syn.toolCallsStart.length)
              match parseInvokes syn (body.length + 1) body with
              | none => none
              | some (calls, rest) =>
                  let split := splitReasoningContent (trimToolSeparatorWs (text.take (from_ + i)))
                  some ⟨split.1, split.2,
                    ⟨calls, some (block.take (block.length - rest.length))⟩⟩

end Ds4.Dsml
