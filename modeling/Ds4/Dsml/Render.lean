import Ds4.Dsml.Syntax
import Ds4.Json.Cursor

/-! Tool calls and the text the prompt renderer writes for them. -/
namespace Ds4.Dsml
open Ds4.Json

structure ToolCall where
  name : Bytes
  arguments : Bytes
  deriving DecidableEq

structure ToolCalls where
  v : List ToolCall
  rawDsml : Option Bytes
  deriving DecidableEq

/-- One top-level member of a call's arguments: a decoded string or minified JSON. -/
structure JsonArg where
  key : Bytes
  value : Bytes
  isString : Bool
  deriving DecidableEq

/-- The member value behind a colon in `json_args_parse`. -/
def jsonArgValue (key p : Bytes) : Option (JsonArg × Bytes) :=
  match jsonWs p with
  | 34 :: r => (jsonString (34 :: r)).map fun q => (JsonArg.mk (cstr key) (cstr q.1) true, q.2)
  | p => (jsonRawValue p).map fun q =>
      (JsonArg.mk (cstr key) (jsonMinifyRawValue q.1) false, q.2)

def skipComma (p : Bytes) : Bytes :=
  match jsonWs p with
  | 44 :: r => jsonWs r
  | r => r

/-- The loop of `json_args_parse`. Text behind the closing brace is ignored. -/
def jsonArgsLoop : ℕ → Bytes → Option (List JsonArg)
  | 0, _ => none
  | n + 1, p =>
      match p with
      | [] => none
      | 125 :: _ => some []
      | p =>
          match jsonString p with
          | none => none
          | some (key, p1) =>
              match jsonWs p1 with
              | 58 :: p2 =>
                  match jsonArgValue key p2 with
                  | none => none
                  | some (arg, p3) => (jsonArgsLoop n (skipComma p3)).map (arg :: ·)
              | _ => none

def jsonArgsParse (json : Bytes) : Option (List JsonArg) :=
  match jsonWs json with
  | 123 :: p => jsonArgsLoop (p.length + 1) (jsonWs p)
  | _ => none

def isStringText (isString : Bool) : Bytes := if isString then lit "true" else lit "false"

def dsmlArg (arg : JsonArg) : Bytes :=
  lit "<｜DSML｜parameter name=\"" ++ dsmlAttrEscaped arg.key ++ lit "\" string=\"" ++
    isStringText arg.isString ++ lit "\">" ++
    (if arg.isString then dsmlParameterText arg.value else dsmlJsonLiteral arg.value) ++
    lit "</｜DSML｜parameter>\n"

/-- The arguments in the order of the tool's schema, the others behind them. Marking an
argument as used is taking it off the list. -/
def orderArgs : List Bytes → List JsonArg → List JsonArg
  | [], args => args
  | key :: order, args =>
      match args.find? fun a => a.key == key with
      | some a => a :: orderArgs order (args.eraseP fun a => a.key == key)
      | none => orderArgs order args

def dsmlArgumentsFromJson (json : Bytes) (order : List Bytes) : Option Bytes :=
  (jsonArgsParse json).map fun args => (orderArgs order args).flatMap dsmlArg

def dsmlInvoke (tc : ToolCall) : Bytes :=
  lit "<｜DSML｜invoke name=\"" ++ dsmlAttrEscaped tc.name ++ lit "\">\n" ++
    (dsmlArgumentsFromJson tc.arguments []).getD
      (lit "<｜DSML｜parameter name=\"arguments\" string=\"true\">" ++
        dsmlParameterText tc.arguments ++ lit "</｜DSML｜parameter>\n") ++
    lit "</｜DSML｜invoke>\n"

/-- `append_dsml_tool_calls_text`. -/
def dsmlToolCallsText (calls : ToolCalls) : Bytes :=
  if calls.v = [] then []
  else
    match calls.rawDsml with
    | some (c :: raw) => c :: raw
    | _ => lit "\n\n<｜DSML｜tool_calls>\n" ++ calls.v.flatMap dsmlInvoke ++
        lit "</｜DSML｜tool_calls>"

end Ds4.Dsml
