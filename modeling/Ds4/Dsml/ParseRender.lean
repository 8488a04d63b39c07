import Ds4.Dsml.Args
import Ds4.Dsml.Escape
import Ds4.Dsml.Parse

/-! The parser on rendered calls: it always succeeds, and what it makes of each argument
is computed here. -/
namespace Ds4.Dsml
open Ds4.Search Ds4.Json

section Attributes

/-- A pattern that ends with `c` and is found before or at the last `c`. -/
theorem infix_upto {α : Type*} {c : α} {w x y : List α} (hy : c ∉ y)
    (h : w ++ [c] <:+: x ++ c :: y) : w <:+ x ∨ w ++ [c] <:+: x := by
  obtain ⟨u, v, huv⟩ := h
  have hsplit : u ++ w ++ c :: v = x ++ c :: y := by simpa using huv
  rcases List.append_eq_append_iff.mp hsplit with ⟨d, hx, hd⟩ | ⟨d, hx, hd⟩
  · cases d with
    | nil => exact .inl ⟨u, by simpa using hx.symm⟩
    | cons e d =>
      obtain ⟨rfl, rfl⟩ := List.cons.inj hd
      exact .inr ⟨u, d, by simpa using hx.symm⟩
  · cases d with
    | nil => exact .inl ⟨u, by simpa using hx⟩
    | cons e d =>
      obtain ⟨rfl, rfl⟩ := List.cons.inj hd
      exact absurd (by simp) hy

theorem suffix_behind {α : Type*} {c : α} {w x y : List α} (hw : c ∉ w)
    (h : w <:+ x ++ c :: y) : w <:+ y := by
  rw [← List.reverse_prefix] at h ⊢
  classical
  refine prefix_before (c := c) (y := x.reverse) (by simpa using hw) ?_
  simpa using h

theorem dsmlAttr_first {x v y : Bytes} (k : Bytes) (hu : HeadUnique (k ++ lit "=\""))
    (hx : ¬ k ++ lit "=\"" <:+: x) (hv : 34 ∉ v) :
    dsmlAttr (x ++ (k ++ lit "=\"" ++ (v ++ 34 :: y))) k = some (dsmlUnescapeText v) := by
  have hdrop : (x ++ (k ++ lit "=\"" ++ (v ++ 34 :: y))).drop
      (x.length + (k ++ lit "=\"").length) = v ++ 34 :: y := by
    rw [← List.length_append, ← List.append_assoc x (k ++ lit "=\""), List.drop_left]
  simp only [dsmlAttr, find_append hu hx, hdrop, find_singleton hv, Option.map_some,
    List.take_left]

/-- The opening tag of a parameter, without its `>`. -/
def paramTag (key type : Bytes) : Bytes :=
  lit "<｜DSML｜parameter " ++ (lit "name=" ++ 34 :: (dsmlAttrEscaped key ++ 34 ::
    (32 :: (lit "string=" ++ 34 :: (type ++ [34])))))

theorem paramTag_name (key type : Bytes) :
    dsmlAttr (paramTag key type ++ [62]) (lit "name") = some key := by
  have h := dsmlAttr_first (lit "name") (x := lit "<｜DSML｜parameter ")
    (v := dsmlAttrEscaped key) (y := 32 :: (lit "string=" ++ 34 :: (type ++ [34, 62])))
    (by decide) (by decide) (fun h => (attrEscaped_clean h).1 rfl)
  rw [unescape_attrEscaped] at h
  rw [← h]
  have hname : lit "name" ++ lit "=\"" = lit "name=" ++ [34] := by decide
  simp only [paramTag, hname, List.append_assoc, List.cons_append, List.nil_append]

/-- The type attribute is found unless the key ends like one. -/
theorem paramTag_string {key type : Bytes} (hk : ¬ lit "string=" <:+ key) (ht : 34 ∉ type) :
    dsmlAttr (paramTag key type ++ [62]) (lit "string") = some (dsmlUnescapeText type) := by
  have hw : lit "string" ++ lit "=\"" = lit "string=" ++ [34] := by decide
  have hclean : (34 : UInt8) ∉ dsmlAttrEscaped key := fun h => (attrEscaped_clean h).1 rfl
  have hx : ¬ lit "string" ++ lit "=\"" <:+:
      (lit "<｜DSML｜parameter " ++ (lit "name=" ++ 34 :: dsmlAttrEscaped key)) ++ 34 :: [32] := by
    rw [hw]
    intro hi
    rcases infix_upto (by decide) hi with hs | hi
    · rw [← List.append_assoc] at hs
      exact hk ((suffix_attrEscaped fun d hd => hd).mp (suffix_behind (by decide) hs))
    · rw [← List.append_assoc] at hi
      rcases infix_upto hclean hi with hs | hi
      · exact absurd hs (by decide)
      · exact absurd hi (by decide)
  have h := dsmlAttr_first (lit "string") (y := [62]) (by decide) hx ht
  rw [← h]
  simp only [paramTag, hw, List.append_assoc, List.cons_append, List.nil_append]

/-- A key that ends like the type attribute hides it: the type read is no type. -/
theorem paramTag_hidden {key type : Bytes} (hk : lit "string=" <:+ key) :
    dsmlAttr (paramTag key type ++ [62]) (lit "string") = some (lit " string=") := by
  have hw : lit "string" ++ lit "=\"" = lit "string=" ++ [34] := by decide
  have hclean : (34 : UInt8) ∉ dsmlAttrEscaped key := fun h => (attrEscaped_clean h).1 rfl
  obtain ⟨u, hu⟩ := (suffix_attrEscaped fun d hd => hd).mpr hk
  have hu34 : (34 : UInt8) ∉ u := fun h => hclean (hu ▸ List.mem_append_left _ h)
  have hx : ¬ lit "string" ++ lit "=\"" <:+:
      (lit "<｜DSML｜parameter " ++ lit "name=") ++ 34 :: u := by
    rw [hw]
    intro hi
    rcases infix_upto hu34 hi with hs | hi
    · exact absurd hs (by decide)
    · exact absurd hi (by decide)
  have h := dsmlAttr_first (lit "string") (v := lit " string=") (y := type ++ [34, 62])
    (by decide) hx
    (by decide)
  have hend : dsmlUnescapeText (lit " string=") = lit " string=" := by decide
  rw [hend] at h
  rw [← h]
  have hsp : lit " string=" = 32 :: lit "string=" := rfl
  simp only [paramTag, ← hu, hw, hsp, List.append_assoc, List.cons_append, List.nil_append]

end Attributes

section Blocks

/-- What `dsml_attr` makes of the type attribute of a rendered argument. -/
def typeRead (a : JsonArg) : Bytes :=
  if lit "string=" <:+ a.key then lit " string=" else isStringText a.isString

def bodyText (a : JsonArg) : Bytes :=
  if a.isString then dsmlParameterText a.value else dsmlJsonLiteral a.value

/-- One rendered argument, added to the arguments read so far. -/
def addArg (acc : Bytes) (a : JsonArg) : Bytes :=
  addParam acc a.key (bodyText a) (some (typeRead a))

theorem mismatch_not_prefix {a b r : Bytes} (h : a.take b.length ≠ b.take a.length) :
    ¬ a <+: b ++ r := by
  rintro ⟨t, ht⟩
  apply h
  have h1 := congrArg (List.take (min a.length b.length)) ht
  rcases le_total a.length b.length with hle | hle
  · rw [min_eq_left hle, List.take_left, List.take_append_of_le_length hle] at h1
    rw [← h1, List.take_of_length_le hle]
  · rw [min_eq_right hle, List.take_left, List.take_append_of_le_length hle] at h1
    rw [h1, List.take_of_length_le hle]

theorem bodyText_find (a : JsonArg) (r : Bytes) :
    splitValue dsmlLong.paramEnd (bodyText a ++ (dsmlLong.paramEnd ++ r)) =
      some (bodyText a, r) := by
  have hfind : find dsmlLong.paramEnd (bodyText a ++ (dsmlLong.paramEnd ++ r)) =
      some (bodyText a).length := by
    unfold bodyText
    split_ifs
    · exact find_guarded (paramGuard_ok _ (by simp)) _ _
    · exact find_guarded (paramGuard_ok _ (by simp)) _ _
  simp only [splitValue, hfind, Option.map_some, List.take_left]
  rw [← List.length_append, ← List.append_assoc, List.drop_left]

theorem splitTag_tag {t r : Bytes} (h : 62 ∉ t) :
    splitTag (t ++ 62 :: r) = some (t ++ [62], r) := by
  have h1 : (t ++ 62 :: r) = (t ++ [62]) ++ r := by simp
  have h2 : (t ++ [62]).length = t.length + 1 := by simp
  simp only [splitTag, find_singleton h, Option.map_some]
  rw [h1, ← h2, List.take_left, List.drop_left]

theorem paramTag_clean {key type : Bytes} (ht : 62 ∉ type) : (62 : UInt8) ∉ paramTag key type := by
  have h1 : (62 : UInt8) ∉ lit "<｜DSML｜parameter " := by decide
  have h2 : (62 : UInt8) ∉ lit "name=" := by decide
  have h3 : (62 : UInt8) ∉ lit "string=" := by decide
  have h4 : (62 : UInt8) ∉ dsmlAttrEscaped key := fun h => (attrEscaped_clean h).2.2 rfl
  simp [paramTag, h1, h2, h3, h4, ht]

theorem dsmlArg_eq (a : JsonArg) (r : Bytes) :
    dsmlArg a ++ r = paramTag a.key (isStringText a.isString) ++
      62 :: (bodyText a ++ (dsmlLong.paramEnd ++ 10 :: r)) := by
  have h1 : lit "<｜DSML｜parameter name=\"" = lit "<｜DSML｜parameter " ++ (lit "name=" ++ [34]) := by
    decide
  have h2 : lit "\" string=\"" = 34 :: 32 :: (lit "string=" ++ [34]) := by decide
  have h3 : lit "\">" = [34, 62] := rfl
  have h4 : lit "</｜DSML｜parameter>\n" = dsmlLong.paramEnd ++ [10] := by decide
  simp only [dsmlArg, paramTag, bodyText, h1, h2, h3, h4, List.append_assoc, List.cons_append,
    List.nil_append]

theorem typeRead_attr (a : JsonArg) :
    dsmlAttr (paramTag a.key (isStringText a.isString) ++ [62]) (lit "string") =
      some (typeRead a) := by
  unfold typeRead
  split_ifs with hk
  · exact paramTag_hidden hk
  · have hq : ∀ b, 34 ∉ isStringText b := by decide
    have hplain : ∀ b, dsmlUnescapeText (isStringText b) = isStringText b := by decide
    rw [paramTag_string hk (hq _), hplain]

section Loops
variable {r : Bytes}

theorem parseParams_end (n : ℕ) (acc : Bytes) :
    parseParams dsmlLong (n + 1) (10 :: (dsmlLong.invokeEnd ++ r)) acc = some (acc, r) := by
  have hws : skipAsciiWs (10 :: (dsmlLong.invokeEnd ++ r)) = dsmlLong.invokeEnd ++ r := rfl
  simp [parseParams, hws]

theorem parseParams_arg (n : ℕ) (a : JsonArg) (acc : Bytes) :
    parseParams dsmlLong (n + 1) (10 :: (dsmlArg a ++ r)) acc =
      parseParams dsmlLong n (10 :: r) (addArg acc a) := by
  have hws : skipAsciiWs (10 :: (dsmlArg a ++ r)) = dsmlArg a ++ r := rfl
  have htype : (62 : UInt8) ∉ isStringText a.isString := by
    cases a.isString <;> decide
  have hend : ¬ dsmlLong.invokeEnd <+: dsmlArg a ++ r := by
    rw [dsmlArg_eq, paramTag, List.append_assoc]
    exact mismatch_not_prefix (by decide)
  have hstart : dsmlLong.paramStart <+: dsmlArg a ++ r := by
    rw [dsmlArg_eq, paramTag, List.append_assoc]
    exact (show dsmlLong.paramStart <+: lit "<｜DSML｜parameter " by decide).trans
      (List.prefix_append ..)
  have htag : splitTag (dsmlArg a ++ r) = some (paramTag a.key (isStringText a.isString) ++ [62],
      bodyText a ++ (dsmlLong.paramEnd ++ 10 :: r)) := by
    rw [dsmlArg_eq, splitTag_tag (paramTag_clean htype)]
  simp only [parseParams, hws, hend, hstart, ↓reduceIte, htag, paramTag_name, typeRead_attr,
    reduceCtorEq, false_and, bodyText_find, addArg]

theorem parseParams_args (args : List JsonArg) (n : ℕ) (hn : args.length < n) (acc : Bytes) :
    parseParams dsmlLong n (10 :: (args.flatMap dsmlArg ++ (dsmlLong.invokeEnd ++ r))) acc =
      some (args.foldl addArg acc, r) := by
  induction args generalizing n acc with
  | nil =>
    obtain ⟨n, rfl⟩ : ∃ m, n = m + 1 := ⟨n - 1, by omega⟩
    exact parseParams_end n acc
  | cons a args ih =>
    obtain ⟨n, rfl⟩ : ∃ m, n = m + 1 := ⟨n - 1, by omega⟩
    rw [List.flatMap_cons, List.append_assoc, parseParams_arg, ih n (by simpa using hn)]
    rfl

end Loops

/-- The arguments the renderer writes for a call; a text it cannot read becomes one string
argument. -/
def renderedArgs (tc : ToolCall) : List JsonArg :=
  (jsonArgsParse tc.arguments).getD [⟨lit "arguments", tc.arguments, true⟩]

/-- The call that the parser makes of a rendered call. -/
def callRead (tc : ToolCall) : ToolCall :=
  ⟨tc.name, 123 :: ((renderedArgs tc).foldl addArg [] ++ [125])⟩

def invokeTag (name : Bytes) : Bytes :=
  lit "<｜DSML｜invoke " ++ (lit "name=" ++ 34 :: (dsmlAttrEscaped name ++ [34]))

theorem dsmlInvoke_eq (tc : ToolCall) (r : Bytes) :
    dsmlInvoke tc ++ r = invokeTag tc.name ++
      62 :: 10 :: ((renderedArgs tc).flatMap dsmlArg ++ (dsmlLong.invokeEnd ++ 10 :: r)) := by
  have h1 : lit "<｜DSML｜invoke name=\"" = lit "<｜DSML｜invoke " ++ (lit "name=" ++ [34]) := by
    decide
  have h3 : lit "\">\n" = [34, 62, 10] := rfl
  have h4 : lit "</｜DSML｜invoke>\n" = dsmlLong.invokeEnd ++ [10] := by decide
  have hargs : (dsmlArgumentsFromJson tc.arguments []).getD
      (lit "<｜DSML｜parameter name=\"arguments\" string=\"true\">" ++
        dsmlParameterText tc.arguments ++ lit "</｜DSML｜parameter>\n") =
      (renderedArgs tc).flatMap dsmlArg := by
    unfold dsmlArgumentsFromJson renderedArgs
    cases jsonArgsParse tc.arguments with
    | some args => rfl
    | none =>
      have h : lit "<｜DSML｜parameter name=\"arguments\" string=\"true\">" =
          lit "<｜DSML｜parameter name=\"" ++ dsmlAttrEscaped (lit "arguments") ++
            lit "\" string=\"" ++ isStringText true ++ lit "\">" := by decide
      simp [dsmlArg, h]
  rw [dsmlInvoke, hargs]
  simp only [invokeTag, h1, h3, h4, List.append_assoc, List.cons_append, List.nil_append]

theorem invokeTag_name (name : Bytes) :
    dsmlAttr (invokeTag name ++ [62]) (lit "name") = some name := by
  have h := dsmlAttr_first (lit "name") (x := lit "<｜DSML｜invoke ")
    (v := dsmlAttrEscaped name) (y := [62])
    (by decide) (by decide) (fun h => (attrEscaped_clean h).1 rfl)
  rw [unescape_attrEscaped] at h
  rw [← h]
  have hname : lit "name" ++ lit "=\"" = lit "name=" ++ [34] := by decide
  simp only [invokeTag, hname, List.append_assoc, List.cons_append, List.nil_append]

theorem invokeTag_clean (name : Bytes) : (62 : UInt8) ∉ invokeTag name := by
  have h1 : (62 : UInt8) ∉ lit "<｜DSML｜invoke " := by decide
  have h2 : (62 : UInt8) ∉ lit "name=" := by decide
  have h4 : (62 : UInt8) ∉ dsmlAttrEscaped name := fun h => (attrEscaped_clean h).2.2 rfl
  simp [invokeTag, h1, h2, h4]

theorem dsmlArg_length_pos (a : JsonArg) : 0 < (dsmlArg a).length := by
  have := congrArg List.length (dsmlArg_eq a [])
  simp at this
  omega

theorem length_le_flatMap {α : Type*} (f : α → Bytes) (hf : ∀ a, 0 < (f a).length) (l : List α) :
    l.length ≤ (l.flatMap f).length := by
  induction l with
  | nil => simp
  | cons a l ih =>
    have := hf a
    simp only [List.length_cons, List.flatMap_cons, List.length_append]
    omega

theorem parseInvokes_call (n : ℕ) (tc : ToolCall) (r : Bytes) :
    parseInvokes dsmlLong (n + 1) (10 :: (dsmlInvoke tc ++ r)) =
      (parseInvokes dsmlLong n (10 :: r)).map fun q => (callRead tc :: q.1, q.2) := by
  have hws : skipAsciiWs (10 :: (dsmlInvoke tc ++ r)) = dsmlInvoke tc ++ r := rfl
  have hend : ¬ dsmlLong.toolCallsEnd <+: dsmlInvoke tc ++ r := by
    rw [dsmlInvoke_eq, invokeTag, List.append_assoc]
    exact mismatch_not_prefix (by decide)
  have hstart : dsmlLong.invokeStart <+: dsmlInvoke tc ++ r := by
    rw [dsmlInvoke_eq, invokeTag, List.append_assoc]
    exact (show dsmlLong.invokeStart <+: lit "<｜DSML｜invoke " by decide).trans
      (List.prefix_append ..)
  have htag := splitTag_tag (r := 10 :: ((renderedArgs tc).flatMap dsmlArg ++
    (dsmlLong.invokeEnd ++ 10 :: r))) (invokeTag_clean tc.name)
  have hargs := length_le_flatMap dsmlArg dsmlArg_length_pos (renderedArgs tc)
  rw [← dsmlInvoke_eq] at htag
  have hparams := parseParams_args (r := 10 :: r) (renderedArgs tc)
    ((10 :: ((renderedArgs tc).flatMap dsmlArg ++ (dsmlLong.invokeEnd ++ 10 :: r))).length + 1)
    (by simp only [List.length_cons, List.length_append]; omega) []
  simp only [parseInvokes, hws, hend, hstart, ↓reduceIte, htag, invokeTag_name, hparams, callRead]

theorem parseInvokes_calls (calls : List ToolCall) (n : ℕ) (hn : calls.length < n) (r : Bytes) :
    parseInvokes dsmlLong n (10 :: (calls.flatMap dsmlInvoke ++ (dsmlLong.toolCallsEnd ++ r))) =
      some (calls.map callRead, r) := by
  induction calls generalizing n with
  | nil =>
    obtain ⟨n, rfl⟩ : ∃ m, n = m + 1 := ⟨n - 1, by omega⟩
    have hws : skipAsciiWs (10 :: (dsmlLong.toolCallsEnd ++ r)) = dsmlLong.toolCallsEnd ++ r := rfl
    simp [parseInvokes, hws]
  | cons tc calls ih =>
    obtain ⟨n, rfl⟩ : ∃ m, n = m + 1 := ⟨n - 1, by omega⟩
    rw [List.flatMap_cons, List.append_assoc, parseInvokes_call, ih n (by simpa using hn)]
    rfl

end Blocks

/-- The parser accepts what the renderer writes, with one call for each call. -/
theorem parse_toolCallsText {calls : List ToolCall} (hne : calls ≠ []) :
    (parseGeneratedMessageEx (dsmlToolCallsText ⟨calls, none⟩) false).map (fun m => m.calls.v) =
      some (calls.map callRead) := by
  have htext : dsmlToolCallsText ⟨calls, none⟩ = lit "\n\n" ++ (dsmlLong.toolCallsStart ++
      10 :: (calls.flatMap dsmlInvoke ++ (dsmlLong.toolCallsEnd ++ []))) := by
    have h : lit "\n\n<｜DSML｜tool_calls>\n" = lit "\n\n" ++ (dsmlLong.toolCallsStart ++ [10]) := by
      decide
    have h' : lit "</｜DSML｜tool_calls>" = dsmlLong.toolCallsEnd := rfl
    simp only [dsmlToolCallsText, hne, ↓reduceIte, h, h', List.append_assoc, List.cons_append,
      List.nil_append, List.append_nil]
  have hmark : findToolCalls (dsmlToolCallsText ⟨calls, none⟩) = some (0, dsmlLong) := by
    have hfirst : find (lit "\n\n" ++ dsmlLong.toolCallsStart)
        (dsmlToolCallsText ⟨calls, none⟩) = some 0 := by
      rw [htext, ← List.append_assoc]
      exact find_prefix (List.prefix_append ..)
    simp [findToolCalls, startMarkers, dsmlSyntaxes, hfirst]
  have hstart : find dsmlLong.toolCallsStart (dsmlToolCallsText ⟨calls, none⟩) = some 2 := by
    rw [htext]
    exact find_append (by decide) (by decide)
  have hbody : (dsmlToolCallsText ⟨calls, none⟩).drop (2 + dsmlLong.toolCallsStart.length) =
      10 :: (calls.flatMap dsmlInvoke ++ (dsmlLong.toolCallsEnd ++ [])) := by
    rw [htext, show 2 = (lit "\n\n").length from rfl, ← List.length_append, ← List.append_assoc,
      List.drop_left]
  have hcalls := length_le_flatMap dsmlInvoke (fun tc => by
    have := congrArg List.length (dsmlInvoke_eq tc [])
    simp only [List.length_cons, List.length_append] at this
    omega) calls
  have hparse := parseInvokes_calls calls
    ((10 :: (calls.flatMap dsmlInvoke ++ (dsmlLong.toolCallsEnd ++ []))).length + 1)
    (by simp only [List.length_cons, List.length_append]; omega) []
  simp only [parseGeneratedMessageEx, Bool.false_eq_true, ↓reduceIte, List.drop_zero, hmark,
    Nat.add_zero, hstart, hbody, hparse, Option.map_some]

end Ds4.Dsml
