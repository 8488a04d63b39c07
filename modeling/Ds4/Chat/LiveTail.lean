import Ds4.Chat.Turns

/-! The tail of a live session against a full rendering of the conversation. -/
namespace Ds4.Chat
open Ds4.Dsml Ds4.Search

/-- A rendering without the end-of-sentence marker it closes with. -/
def withoutEndOfSentence (text : Bytes) : Bytes :=
  text.take (text.length - endOfSentence.length)

/-- Every answer stands behind the last user or tool message. -/
def AnswersLast (msgs : List ChatMsg) : Prop :=
  ∀ i ∈ answers false 0 msgs, lastUserIdx msgs < i

instance (msgs : List ChatMsg) : Decidable (AnswersLast msgs) :=
  inferInstanceAs (Decidable (∀ i ∈ answers false 0 msgs, lastUserIdx msgs < i))

@[simp]
theorem withoutEndOfSentence_append (x : Bytes) :
    withoutEndOfSentence (x ++ endOfSentence) = x := by
  simp [withoutEndOfSentence]

/-- The system part does not read the messages of other roles. -/
theorem systemText_append {xs ys : List ChatMsg} (schemas : Bytes)
    (h : ∀ m ∈ ys, roleIsSystem m.role = false) :
    systemText (xs ++ ys) schemas = systemText xs schemas := by
  have hnil : ys.filter (fun m => roleIsSystem m.role) = [] := by
    simpa [List.filter_eq_nil_iff] using h
  simp [systemText, List.filter_append, hnil]

theorem promptHead_append {xs ys : List ChatMsg} (schemas : Bytes) (mode : ThinkMode)
    (h : ∀ m ∈ ys, roleIsSystem m.role = false) :
    promptHead (xs ++ ys) schemas mode = promptHead xs schemas mode := by
  rw [promptHead, promptHead, systemText_append schemas h]

/-- Behind an assistant turn the buffer ends in the marker and nothing is pending. -/
theorem renderMsgs_assistant (think : Bool) (sh : ℕ → Bool) (i : ℕ) (ms : List ChatMsg)
    (s : RenderState) {m : ChatMsg} (ha : roleIsAssistant m.role = true) :
    ∃ x, renderMsgs think sh i (ms ++ [m]) s =
      RenderState.prepend x ⟨endOfSentence, false, false⟩ := by
  rw [renderMsgs_append, renderMsgs, renderMsgs, renderMsg_assistant _ ha, ← List.append_assoc]
  exact ⟨_, rfl⟩

section Continuation
variable {pre post : List ChatMsg} {schemas : Bytes} {mode : ThinkMode} {m : ChatMsg}

/-- The prompt of the first messages, cut off at its last marker, and the tail give the
full prompt exactly where both renderings keep the same thoughts. -/
theorem renderChatPromptText_continues (mode : ThinkMode) (ha : roleIsAssistant m.role = true)
    (hsys : ∀ q ∈ post, roleIsSystem q.role = false)
    (hctx : chatHistoryUsesToolContext (pre ++ [m] ++ post) schemas = true) :
    endOfSentence <:+ renderChatPromptText (pre ++ [m]) schemas mode ∧
      (renderChatPromptText (pre ++ [m] ++ post) schemas mode =
          withoutEndOfSentence (renderChatPromptText (pre ++ [m]) schemas mode) ++
            renderLiveToolTail (pre ++ [m] ++ post) (pre ++ [m]).length mode ↔
        (thinkModeEnabled mode = true →
          chatHistoryUsesToolContext (pre ++ [m]) schemas = true ∨ AnswersLast (pre ++ [m]))) := by
  set think := thinkModeEnabled mode with hthink
  set head : RenderState := ⟨promptHead (pre ++ [m]) schemas mode, false, false⟩ with hhead
  set keepAll := keepsReasoning (pre ++ [m] ++ post) schemas with hall
  set keepPre := keepsReasoning (pre ++ [m]) schemas with hpre
  have htrue : keepAll = fun _ => true := by
    funext i
    rw [hall, keepsReasoning, hctx, Bool.true_or]
  obtain ⟨x, hx⟩ := renderMsgs_assistant think keepAll 0 pre head ha
  obtain ⟨y, hy⟩ := renderMsgs_assistant think keepPre 0 pre head ha
  have hfull : renderChatPromptText (pre ++ [m] ++ post) schemas mode =
      x ++ renderLiveToolTail (pre ++ [m] ++ post) (pre ++ [m]).length mode := by
    rw [renderChatPromptText, renderMsgs_append, promptHead_append schemas mode hsys, ← hall,
      ← hthink, ← hhead, hx, renderMsgs_prepend, renderEnd_prepend, renderLiveToolTail,
      List.drop_left, htrue, ← hthink, Nat.zero_add]
  have hprompt : renderChatPromptText (pre ++ [m]) schemas mode = y ++ endOfSentence := by
    rw [renderChatPromptText, ← hpre, ← hthink, ← hhead, hy, renderEnd_prepend]
    simp [renderEnd]
  refine ⟨hprompt ▸ List.suffix_append y endOfSentence, ?_⟩
  rw [hfull, hprompt, withoutEndOfSentence_append, List.append_left_inj,
    ← RenderState.prepend_inj (s := ⟨endOfSentence, false, false⟩), ← hx, ← hy, renderMsgs_eq_iff,
    htrue]
  refine imp_congr_right fun _ => ?_
  cases hc : chatHistoryUsesToolContext (pre ++ [m]) schemas with
  | true => simp [hpre, keepsReasoning, hc]
  | false => simp [hpre, keepsReasoning, hc, AnswersLast, hhead]

/-- Extending the live session with the tail gives the prompt of the whole conversation
exactly if thinking is off, the messages before the tail have tool context, or their
answers all stand behind their last user or tool message. -/
theorem liveTail_extends {msgs : List ChatMsg} {start : ℕ} (hpos : 0 < start)
    (hm : msgs[start - 1]? = some m) (ha : roleIsAssistant m.role = true)
    (hsys : ∀ q ∈ msgs.drop start, roleIsSystem q.role = false)
    (hctx : chatHistoryUsesToolContext msgs schemas = true) :
    endOfSentence <:+ renderChatPromptText (msgs.take start) schemas mode ∧
      (renderChatPromptText msgs schemas mode =
          withoutEndOfSentence (renderChatPromptText (msgs.take start) schemas mode) ++
            renderLiveToolTail msgs start mode ↔
        (thinkModeEnabled mode = true →
          chatHistoryUsesToolContext (msgs.take start) schemas = true ∨
            AnswersLast (msgs.take start))) := by
  have htake : msgs.take start = msgs.take (start - 1) ++ [m] := by
    have h := List.take_add_one (l := msgs) (i := start - 1)
    rw [hm, Nat.sub_add_cancel hpos] at h
    simpa using h
  have hlen : (msgs.take start).length = start := by
    have := (List.getElem?_eq_some_iff.mp hm).1
    rw [List.length_take]
    omega
  have hsplit : msgs = msgs.take (start - 1) ++ [m] ++ msgs.drop start := by
    rw [← htake, List.take_append_drop]
  have h := renderChatPromptText_continues mode ha hsys (hsplit ▸ hctx)
  rwa [← htake, hlen, List.take_append_drop] at h

end Continuation

def plainTurn (role content : String) : ChatMsg := ⟨lit role, lit content, [], ⟨[], none⟩⟩

/-- A tool call and its result behind it. -/
def calledTool : List ChatMsg :=
  [plainTurn "user" "ls", ⟨lit "assistant", [], [], ⟨[⟨lit "bash", lit "pwd"⟩], none⟩⟩,
    plainTurn "tool" "ok"]

theorem calledTool_extends :
    renderChatPromptText calledTool [] .high =
      withoutEndOfSentence (renderChatPromptText (calledTool.take 2) [] .high) ++
        renderLiveToolTail calledTool 2 .high :=
  (liveTail_extends (m := ⟨lit "assistant", [], [], ⟨[⟨lit "bash", lit "pwd"⟩], none⟩⟩)
    (by decide) rfl (by decide) (by decide) (by decide)).2.mpr (by decide)

/-- Two answered turns without a call, then a tool message. -/
def lateTool : List ChatMsg :=
  [plainTurn "user" "a", plainTurn "assistant" "b", plainTurn "user" "c",
    plainTurn "assistant" "d", plainTurn "tool" "e"]

/-- The tool message gives the whole list its tool context, the messages before it have
none: they were rendered without the thoughts of the first answer. -/
theorem lateTool_parts :
    chatHistoryUsesToolContext lateTool [] = true ∧
      (lateTool[3]?.map fun m => roleIsAssistant m.role) = some true ∧
      (∀ q ∈ lateTool.drop 4, roleIsSystem q.role = false) ∧
      renderChatPromptText lateTool [] .high ≠
        withoutEndOfSentence (renderChatPromptText (lateTool.take 4) [] .high) ++
          renderLiveToolTail lateTool 4 .high := by
  refine ⟨by decide, by decide, by decide, fun h => ?_⟩
  have ha : roleIsAssistant (plainTurn "assistant" "d").role = true := by decide
  have hsys : ∀ q ∈ [plainTurn "tool" "e"], roleIsSystem q.role = false := by decide
  have hctx : chatHistoryUsesToolContext
      (lateTool.take 3 ++ [plainTurn "assistant" "d"] ++ [plainTurn "tool" "e"]) [] = true := by
    decide
  have hiff := renderChatPromptText_continues .high ha hsys hctx
  exact absurd (hiff.2.mp h) (by decide)

end Ds4.Chat
