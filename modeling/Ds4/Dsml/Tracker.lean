import Ds4.Dsml.Syntax
import Ds4.Stream.Resumable

/-! The decode-state tracker and the reference recognizer it is tested against. -/
namespace Ds4.Dsml
open Ds4.Search Ds4.Resumable

inductive DsmlDecodeState where
  | outside
  | structural
  | stringBody
  | jsonStructural
  | jsonString
  deriving DecidableEq

def rawPartialLitMin (raw : Bytes) (pos : ℕ) (l : Bytes) (minLen : ℕ) : Bool :=
  decide (minLen ≤ raw.length - pos) && decide (raw.length - pos < l.length) &&
    decide (raw.drop pos <+: l)

/-- The earliest marker of any syntax: the position behind it and its syntax. -/
def dsmlFindToolStart (raw : Bytes) : Option (ℕ × DsmlSyntax) :=
  (dsmlSyntaxes.foldl (fun best syn =>
    match find syn.toolCallsStart raw, best with
    | none, best => best
    | some p, none => some (p, syn)
    | some p, some b => if p < b.1 then some (p, syn) else some b) none).map
    fun b => (b.1 + b.2.toolCallsStart.length, b.2)

def dsmlFindToolStartFrom (raw : Bytes) (start : ℕ) : Option (ℕ × DsmlSyntax) :=
  (dsmlFindToolStart (raw.drop start)).map fun p => (start + p.1, p.2)

def dsmlMaxToolStartLen : ℕ := (dsmlSyntaxes.map fun syn => syn.toolCallsStart.length).foldl max 0

def dsmlAttrIsStringTrue (tag : Bytes) : Bool :=
  dsmlAttr (cstr tag) (lit "string") == some (lit "true")

/-- `in_string` and `escaped` behind one more byte of a JSON value. -/
def jsonAdvance (inString escaped : Bool) (c : UInt8) : Bool × Bool :=
  if inString then
    if escaped then (true, false)
    else if c = 92 then (true, true)
    else (c != 34, escaped)
  else (c == 34, escaped)

section Tracker

/-- The mode with the fields the code reads in it: a syntax once a block has begun, the two
JSON flags inside a JSON value. -/
inductive DsmlTrackMode where
  | search
  | structural (syn : DsmlSyntax)
  | stringBody (syn : DsmlSyntax)
  | jsonParam (syn : DsmlSyntax) (inString escaped : Bool)
  | done
  deriving DecidableEq

structure TrackPoint where
  mode : DsmlTrackMode
  pos : ℕ
  deriving DecidableEq

/-- One pass of the loops in `dsml_decode_tracker_update`; a return is a wait with the
decode state it sets. -/
def trackStep (raw : Bytes) (dt : TrackPoint) : Progress TrackPoint Empty DsmlDecodeState :=
  let rest := raw.drop dt.pos
  match dt.mode with
  | .done => .wait dt .outside
  | .search =>
      match dsmlFindToolStartFrom raw dt.pos with
      | none => .wait ⟨.search, raw.length - dsmlMaxToolStartLen⟩ .outside
      | some (pos, syn) => .go ⟨.structural syn, pos⟩ []
  | .stringBody syn =>
      if dt.pos < raw.length then
        if syn.paramEnd <+: rest then .go ⟨.structural syn, dt.pos + syn.paramEnd.length⟩ []
        else if rawPartialLitMin raw dt.pos syn.paramEnd 2 then .wait dt .structural
        else .go ⟨.stringBody syn, dt.pos + 1⟩ []
      else .wait dt .stringBody
  | .jsonParam syn inString escaped =>
      match rest with
      | [] => .wait dt (if inString then .jsonString else .jsonStructural)
      | c :: _ =>
          if inString = false ∧ syn.paramEnd <+: rest then
            .go ⟨.structural syn, dt.pos + syn.paramEnd.length⟩ []
          else if inString = false ∧ rawPartialLitMin raw dt.pos syn.paramEnd 2 then
            .wait dt .structural
          else
            .go ⟨.jsonParam syn (jsonAdvance inString escaped c).1
              (jsonAdvance inString escaped c).2, dt.pos + 1⟩ []
  | .structural syn =>
      match rest with
      | [] => .wait dt .structural
      | c :: _ =>
          if isSpace c then .go ⟨.structural syn, dt.pos + 1⟩ []
          else if syn.toolCallsEnd <+: rest then
            .wait ⟨.done, dt.pos + syn.toolCallsEnd.length⟩ .outside
          else if syn.invokeEnd <+: rest then
            .go ⟨.structural syn, dt.pos + syn.invokeEnd.length⟩ []
          else if syn.invokeStart <+: rest then
            match find [62] rest with
            | none => .wait dt .structural
            | some i => .go ⟨.structural syn, dt.pos + i + 1⟩ []
          else if syn.paramStart <+: rest then
            match find [62] rest with
            | none => .wait dt .structural
            | some i =>
                if dsmlAttrIsStringTrue (rest.take (i + 1)) then
                  .go ⟨.stringBody syn, dt.pos + i + 1⟩ []
                else .go ⟨.jsonParam syn false false, dt.pos + i + 1⟩ []
          -- a marker that may still be completed and any other text end the same way
          else .wait dt .structural

end Tracker

section Reference

def rawSuffixPartialLit (raw l : Bytes) (minLen : ℕ) : Bool :=
  let max := if raw.length < l.length then raw.length else l.length - 1
  (List.range (max + 1)).any fun n =>
    decide (minLen ≤ n) && decide (raw.drop (raw.length - n) = l.take n)

/-- `dsml_decode_scan_json_param` from the rest of `raw` on. -/
def dsmlDecodeScanJsonParam (raw : Bytes) (syn : DsmlSyntax) : Bool → Bool → Bytes → DsmlDecodeState
  | inString, _, [] =>
      if inString = false ∧ rawSuffixPartialLit raw syn.paramEnd 2 then .structural
      else if inString then .jsonString
      else .jsonStructural
  | inString, escaped, c :: rest =>
      if inString = false ∧ syn.paramEnd <+: c :: rest then .structural
      else
        dsmlDecodeScanJsonParam raw syn (jsonAdvance inString escaped c).1
          (jsonAdvance inString escaped c).2 rest

/-- The loop of `dsml_decode_state_for_text` at `pos`. -/
def dsmlDecodeLoop (raw : Bytes) (syn : DsmlSyntax) : ℕ → ℕ → DsmlDecodeState
  | 0, _ => .structural
  | n + 1, pos =>
      let pos := pos + ((raw.drop pos).takeWhile isSpace).length
      let rest := raw.drop pos
      if rest = [] then .structural
      else if syn.toolCallsEnd <+: rest then .outside
      else if syn.invokeEnd <+: rest then dsmlDecodeLoop raw syn n (pos + syn.invokeEnd.length)
      else if syn.invokeStart <+: rest then
        match find [62] rest with
        | none => .structural
        | some i => dsmlDecodeLoop raw syn n (pos + i + 1)
      else if syn.paramStart <+: rest then
        match find [62] rest with
        | none => .structural
        | some i =>
            let pos := pos + i + 1
            if dsmlAttrIsStringTrue (rest.take (i + 1)) then
              match find syn.paramEnd (raw.drop pos) with
              | none =>
                  if rawSuffixPartialLit raw syn.paramEnd 2 then .structural else .stringBody
              | some k => dsmlDecodeLoop raw syn n (pos + k + syn.paramEnd.length)
            else
              let json := dsmlDecodeScanJsonParam raw syn false false (raw.drop pos)
              if json = .structural then
                match find syn.paramEnd (raw.drop pos) with
                | none => .structural
                | some k => dsmlDecodeLoop raw syn n (pos + k + syn.paramEnd.length)
              else json
      else .structural

/-- `dsml_decode_state_for_text`. -/
def dsmlDecodeStateForText (raw : Bytes) : DsmlDecodeState :=
  match dsmlFindToolStart raw with
  | none => .outside
  | some (pos, syn) => dsmlDecodeLoop raw syn (raw.length + 1) pos

end Reference

end Ds4.Dsml
