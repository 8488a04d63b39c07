import Ds4.Chat.InputOrder

/-! The rendered prompt of a Responses request against its input. -/
namespace Ds4.Chat
open Ds4.Dsml

/-- The prompt of a history with all thoughts kept, cut into pieces. -/
def promptPieces (msgs : List ChatMsg) (schemas : Bytes) (mode : ThinkMode) : List Piece :=
  .mark (promptHead msgs schemas mode) ::
    (historyPieces (thinkModeEnabled mode) (keepsReasoning msgs schemas) 0 msgs
        ⟨promptHead msgs schemas mode, false, false⟩ ++
      [.mark (if pendingAfter false msgs then openTurn (thinkModeEnabled mode) else [])])

theorem promptPieces_text (msgs : List ChatMsg) (schemas : Bytes) (mode : ThinkMode) :
    (promptPieces msgs schemas mode).flatMap Piece.text =
      renderChatPromptText msgs schemas mode := by
  rw [renderChatPromptText, renderEnd, historyPieces_text, renderMsgs_pending]
  simp [promptPieces, Piece.text]

theorem promptPieces_events (msgs : List ChatMsg) {schemas : Bytes} {mode : ThinkMode}
    (hthink : thinkModeEnabled mode = true) (hschemas : schemas ≠ []) :
    (promptPieces msgs schemas mode).flatMap Piece.events = histEvents false msgs := by
  have hkeep : keepsReasoning msgs schemas = fun _ => true := by
    funext i
    simp [keepsReasoning, chatHistoryUsesToolContext, hschemas]
  rw [promptPieces, hthink, hkeep, List.flatMap_cons, List.flatMap_append, historyPieces_events]
  simp [Piece.events]

theorem histEvents_withInstructions (instructions : Bytes) (msgs : List ChatMsg) :
    histEvents false (withInstructions instructions msgs) = histEvents false msgs := by
  rw [withInstructions]
  split_ifs with h
  · rfl
  · have hs : roleIsSystem (lit "system") = true := rfl
    have hu := not_userLike_of_system hs
    have ha := not_assistant_of_system hs
    rw [histEvents, msgEvents_other (m := plainMsg (lit "system") instructions) hu ha, nextPending]
    simp [plainMsg, ha, hu]

/-- The text of an answer behind its thought section. -/
def answerText (m : ChatMsg) : Bytes := m.content ++ dsmlToolCallsText m.calls ++ endOfSentence

/-- The text of a tool message behind an answer. -/
def outputText (content : Bytes) : Bytes :=
  userMark ++ lit "<tool_result>" ++ toolResultText content ++ lit "</tool_result>"

/-- Every reasoning item stands in a thought section of the prompt, in its place among
messages, calls and outputs. -/
def ReasoningInOrder (instructions toolSchemas : Bytes) (mode : ThinkMode) (its : List Item)
    (st : InputState) : Prop :=
  ∃ pieces, pieces = promptPieces (withInstructions instructions st.msgs)
      (joinText (lit "\n") toolSchemas st.loadedToolSchemas) mode ∧
    pieces.flatMap Piece.text = responsesPrompt instructions toolSchemas mode st ∧
    pieces.flatMap Piece.events = its.flatMap Item.events

/-- Every output behind its calls directly follows, in the messages and in the prompt, the
answer that carries them. -/
def OutputsFollow (prompt : Bytes) (its : List Item) (st : InputState) : Prop :=
  ∀ before calls content loaded after, calls ≠ [] →
    its = before ++ calls.map .call ++ .output content loaded :: after →
      ∃ pre m post x y, ((before ++ calls.map .call).foldl stepItem startInput).msgs = pre ++ [m] ∧
        st.msgs = pre ++ [m] ++ plainMsg (lit "tool") content :: post ∧
        roleIsAssistant m.role = true ∧ calls <:+ m.calls.v ∧
        prompt = x ++ (answerText m ++ outputText content) ++ y

section Outputs

/-- A run of calls ends up in the last message. -/
theorem calls_in_last (st : InputState) {calls : List ToolCall} (h : calls ≠ []) :
    ∃ pre m, ((calls.map Item.call).foldl stepItem st).msgs = pre ++ [m] ∧
      roleIsAssistant m.role = true ∧ calls <:+ m.calls.v := by
  induction calls using List.reverseRecOn with
  | nil => exact absurd rfl h
  | append_singleton cs tc ih =>
    rw [List.map_append, List.foldl_append]
    have hstep := stepItem_call ((cs.map Item.call).foldl stepItem st) tc
    have hgrow : ∀ pre m, ((cs.map Item.call).foldl stepItem st).msgs = pre ++ [m] →
        roleIsAssistant m.role = true → cs <:+ m.calls.v := by
      intro pre m hmsgs _
      by_cases hcs : cs = []
      · exact hcs ▸ List.nil_suffix
      · obtain ⟨pre', m', hmsgs', -, hsuf⟩ := ih hcs
        have hm : m = m' := by simpa using congrArg List.getLast? (hmsgs.symm.trans hmsgs')
        exact hm ▸ hsuf
    have hpush : ∀ m : ChatMsg, cs <:+ m.calls.v → cs ++ [tc] <:+ (pushCall m tc).calls.v := by
      rintro m ⟨u, hu⟩
      exact ⟨u, by rw [← List.append_assoc, hu]; rfl⟩
    show ∃ pre m, (stepItem ((cs.map Item.call).foldl stepItem st) (.call tc)).msgs = pre ++ [m] ∧ _
    generalize stepItem ((cs.map Item.call).foldl stepItem st) (.call tc) = st' at hstep ⊢
    cases hstep with
    | attached pre m hmsgs ha hr hm => exact ⟨pre, _, rfl, ha, hpush _ (hgrow pre m hmsgs ha)⟩
    | joined pre m hmsgs ha hr => exact ⟨pre, _, rfl, ha, hpush _ (hgrow pre m hmsgs ha)⟩
    | separate hlast =>
      have hcs : cs = [] := by
        by_contra hcs
        obtain ⟨pre, m, hmsgs, ha, -⟩ := ih hcs
        simp [hlast pre m hmsgs] at ha
      refine ⟨_, _, rfl, rfl, ?_⟩
      subst hcs
      exact List.suffix_rfl

/-- Messages up to one that is no answer stay as they are. -/
theorem prefix_step {fixed : List ChatMsg} {q : ChatMsg} (hq : roleIsAssistant q.role = false)
    {st : InputState} (it : Item) (h : fixed ++ [q] <+: st.msgs) :
    fixed ++ [q] <+: (stepItem st it).msgs := by
  have hflush : fixed ++ [q] <+: flushed st := h.trans (List.prefix_append _ _)
  have hpre : ∀ pre m, st.msgs = pre ++ [m] → roleIsAssistant m.role = true →
      fixed ++ [q] <+: pre := by
    intro pre m hmsgs ha
    rw [hmsgs] at h
    rcases List.prefix_concat_iff.mp h with he | hp
    · have hm : q = m := by simpa using congrArg List.getLast? he
      simp [← hm, hq] at ha
    · exact hp
  cases it with
  | message role content =>
    cases ha : roleIsAssistant role with
    | false =>
      rw [stepItem_plain st content ha]
      exact hflush.trans (List.prefix_append _ _)
    | true =>
      rw [stepItem_answer st content ha]
      exact h.trans (List.prefix_append _ _)
  | call tc =>
    have hstep := stepItem_call st tc
    generalize stepItem st (.call tc) = st' at hstep ⊢
    cases hstep with
    | attached pre m hmsgs ha hr hm => exact (hpre pre m hmsgs ha).trans (List.prefix_append _ _)
    | joined pre m hmsgs ha hr => exact (hpre pre m hmsgs ha).trans (List.prefix_append _ _)
    | separate hlast => exact h.trans (List.prefix_append _ _)
  | output content loaded =>
    rw [stepItem_output]
    exact hflush.trans (List.prefix_append _ _)
  | reasoning summary content =>
    rw [stepItem_reasoning]
    exact hflush
  | bookkeeping =>
    rw [stepItem_bookkeeping]
    exact h

theorem prefix_finish {fixed : List ChatMsg} {q : ChatMsg} (hq : roleIsAssistant q.role = false)
    {st : InputState} (its : List Item) (h : fixed ++ [q] <+: st.msgs) :
    fixed ++ [q] <+: (finishInput (its.foldl stepItem st)).msgs := by
  induction its generalizing st with
  | nil =>
    rw [finishInput_msgs]
    exact h.trans (List.prefix_append _ _)
  | cons it its ih => exact ih (prefix_step hq it h)

theorem renderMsg_output {think shown : Bool} (out content : Bytes) :
    (renderMsg think shown ⟨out, false, false⟩ (plainMsg (lit "tool") content)).out =
      out ++ outputText content := by
  have hs : ¬ roleIsSystem (plainMsg (lit "tool") content).role = true := nofun
  have hu : ¬ (plainMsg (lit "tool") content).role = lit "user" := nofun
  have ht : roleIsTool (plainMsg (lit "tool") content).role = true := rfl
  rw [renderMsg, if_neg hs, if_neg hu, if_pos ht]
  rfl

/-- The prompt text around an answer and the tool message behind it. -/
theorem prompt_around (before post : List ChatMsg) {m : ChatMsg} (content schemas : Bytes)
    (mode : ThinkMode) (ha : roleIsAssistant m.role = true) :
    ∃ x y, renderChatPromptText (before ++ [m] ++ plainMsg (lit "tool") content :: post) schemas
      mode = x ++ (answerText m ++ outputText content) ++ y := by
  set msgs := before ++ [m] ++ plainMsg (lit "tool") content :: post with hmsgs
  set think := thinkModeEnabled mode with hthink
  set keep := keepsReasoning msgs schemas with hkeep
  set s := renderMsgs think keep 0 before ⟨promptHead msgs schemas mode, false, false⟩ with hs
  set x := s.out ++ if s.pendingAssistant then
    assistantMark ++ thinkText think (keep before.length) m.reasoning else [] with hx
  have hanswer : renderMsg think (keep before.length) s m = ⟨x ++ answerText m, false, false⟩ := by
    rw [renderMsg_assistant s ha, answerText, hx]
    simp
  set s' := renderMsg think (keep (before.length + 1)) ⟨x ++ answerText m, false, false⟩
    (plainMsg (lit "tool") content) with hs'
  have hout : s'.out = x ++ answerText m ++ outputText content := renderMsg_output _ _
  obtain ⟨y, hy⟩ := renderMsgs_out_grows think keep (before.length + 1 + 1) post s'
  refine ⟨x, y ++ if (renderMsgs think keep (before.length + 1 + 1) post s').pendingAssistant then
    openTurn think else [], ?_⟩
  have hsplit : msgs = before ++ m :: plainMsg (lit "tool") content :: post := by
    rw [hmsgs, List.append_assoc, List.singleton_append]
  have hrun : renderMsgs think keep 0 msgs ⟨promptHead msgs schemas mode, false, false⟩ =
      renderMsgs think keep (before.length + 1 + 1) post s' := by
    nth_rewrite 1 [hsplit]
    rw [renderMsgs_append, ← hs, renderMsgs, renderMsgs, Nat.zero_add, hanswer]
  rw [renderChatPromptText, ← hthink, ← hkeep, hrun, renderEnd, ← hy, hout]
  simp

end Outputs

section Law
variable {its : List Item} {instructions toolSchemas : Bytes} {mode : ThinkMode}

theorem reasoningInOrder_iff {st : InputState}
    (hst : st = finishInput (its.foldl stepItem startInput)) (hthink : thinkModeEnabled mode = true)
    (htools : joinText (lit "\n") toolSchemas st.loadedToolSchemas ≠ []) :
    ReasoningInOrder instructions toolSchemas mode its st ↔ thoughtsPlaced .used its = true := by
  have hevents := promptPieces_events (withInstructions instructions st.msgs) hthink htools
  rw [histEvents_withInstructions] at hevents
  rw [← finished_events_iff, ← hst, ← hevents]
  constructor
  · rintro ⟨pieces, rfl, -, h⟩
    exact h
  · exact fun h => ⟨_, rfl, promptPieces_text _ _ _, h⟩

/-- Behind a run of calls nothing is pending if the thoughts are in place. -/
theorem outputsFollow_of_placed {st : InputState}
    (hst : st = finishInput (its.foldl stepItem startInput))
    (hp : thoughtsPlaced .used its = true) :
    OutputsFollow (responsesPrompt instructions toolSchemas mode st) its st := by
  intro before calls content loaded after hcalls hits
  set front := (before ++ calls.map Item.call).foldl stepItem startInput with hfront
  obtain ⟨pre, m, hmsgs, ha, hsuf⟩ := calls_in_last (before.foldl stepItem startInput) hcalls
  rw [← List.foldl_append, ← hfront] at hmsgs
  have hshows : Shows front _ (.output content loaded :: after) :=
    shows_run slotInv_start (shows_start _) (hits ▸ hp)
  have hnil : front.pendingReasoning = [] := by
    by_contra hne
    rcases hshows.2 hne with hopen | ⟨⟨pre', m', hmsgs', -, -, -, hempty, -⟩, -⟩
    · simp [hmsgs, pendingAfter_concat, nextPending_assistant ha] at hopen
    · have hm : m = m' := by simpa using congrArg List.getLast? (hmsgs.symm.trans hmsgs')
      rw [hm, hempty, List.suffix_nil] at hsuf
      exact hcalls hsuf
  have hstep : (stepItem front (.output content loaded)).msgs =
      (pre ++ [m]) ++ [plainMsg (lit "tool") content] := by
    rw [stepItem_output, flushed_of_nil hnil, hmsgs]
  obtain ⟨post, hpost⟩ := prefix_finish (q := plainMsg (lit "tool") content) rfl after
    (hstep ▸ List.prefix_rfl : (pre ++ [m]) ++ [plainMsg (lit "tool") content] <+:
      (stepItem front (.output content loaded)).msgs)
  have hall : st.msgs = pre ++ [m] ++ plainMsg (lit "tool") content :: post := by
    rw [hst, hits, List.foldl_append, List.foldl_cons, ← hfront, ← hpost]
    simp
  have hwith : ∃ head, withInstructions instructions st.msgs =
      head ++ pre ++ [m] ++ plainMsg (lit "tool") content :: post := by
    rw [withInstructions]
    split_ifs with hi
    · exact ⟨[], by rw [hall]; rfl⟩
    · exact ⟨[plainMsg (lit "system") instructions], by rw [hall]; simp⟩
  obtain ⟨head, hhead⟩ := hwith
  obtain ⟨x, y, htext⟩ := prompt_around (head ++ pre) post content
    (joinText (lit "\n") toolSchemas st.loadedToolSchemas) mode ha
  exact ⟨pre, m, post, x, y, hmsgs, hall, ha, hsuf, by rw [responsesPrompt, hhead, htext]⟩

/-- With thinking on and tools active, the prompt of an accepted input keeps all reasoning
in its place and every output behind its calls exactly if the reasoning is placed. -/
theorem responsesInput_kept_iff {items : List InputItem} {st : InputState}
    (hits : items.mapM InputItem.item = some its) (hst : parseResponsesInput items = some st)
    (hthink : thinkModeEnabled mode = true)
    (htools : joinText (lit "\n") toolSchemas st.loadedToolSchemas ≠ []) :
    ReasoningInOrder instructions toolSchemas mode its st ∧
        OutputsFollow (responsesPrompt instructions toolSchemas mode st) its st ↔
      thoughtsPlaced .used its = true := by
  have hst' : st = finishInput (its.foldl stepItem startInput) := by
    rw [parseResponsesInput, hits] at hst
    exact (Option.some.inj hst).symm
  rw [reasoningInOrder_iff hst' hthink htools]
  exact ⟨And.left, fun h => ⟨h, outputsFollow_of_placed hst' h⟩⟩

end Law

def reasoningItem (text : String) : InputItem :=
  { type := some (lit "reasoning"), summary := some (lit text) }

def messageItem (role text : String) : InputItem :=
  { role := some (lit role), content := some (lit text) }

def callItem (name : String) : InputItem :=
  { type := some (lit "function_call"), name := some (lit name) }

def outputItem (text : String) : InputItem :=
  { type := some (lit "function_call_output"), output := some (lit text) }

def loopItems : List InputItem :=
  [messageItem "user" "ls", reasoningItem "look", callItem "bash", outputItem "ok"]

theorem loopItems_kept :
    ∃ its st, loopItems.mapM InputItem.item = some its ∧ parseResponsesInput loopItems = some st ∧
      ReasoningInOrder [] (lit "bash") .high its st ∧
        OutputsFollow (responsesPrompt [] (lit "bash") .high st) its st := by
  have hits : loopItems.mapM InputItem.item = some [.message (lit "user") (lit "ls"),
      .reasoning (lit "look") [], .call ⟨lit "bash", lit "\x7b\x7d"⟩, .output (lit "ok") []] := rfl
  have hst : parseResponsesInput loopItems = some _ := rfl
  exact ⟨_, _, hits, hst, (responsesInput_kept_iff hits hst rfl (by decide)).mpr (by decide)⟩

/-- A second thought behind a message finds its place taken. -/
def twiceItems : List InputItem :=
  [messageItem "user" "ls", reasoningItem "look", messageItem "assistant" "ok",
    reasoningItem "again", callItem "bash", outputItem "done"]

theorem twiceItems_lost :
    ∃ its st, twiceItems.mapM InputItem.item = some its ∧
      parseResponsesInput twiceItems = some st ∧
      ¬ ReasoningInOrder [] (lit "bash") .high its st := by
  refine ⟨[.message (lit "user") (lit "ls"), .reasoning (lit "look") [],
    .message (lit "assistant") (lit "ok"), .reasoning (lit "again") [],
    .call ⟨lit "bash", lit "\x7b\x7d"⟩, .output (lit "done") []], _, rfl, rfl, fun h => ?_⟩
  exact absurd ((reasoningInOrder_iff rfl rfl (by decide)).mp h) (by decide)

end Ds4.Chat
