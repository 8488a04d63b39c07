import Ds4.Chat.LiveTail

/-! The visible transcript remembered behind a finished turn, and the prompt of the next
request that should begin with it. -/
namespace Ds4.Chat
open Ds4.Dsml Ds4.Search

inductive ApiStyle where
  | openai | anthropic | responses
  deriving DecidableEq

inductive ReqKind where
  | chat | completion
  deriving DecidableEq

inductive Finish where
  | stop | length | toolCalls | error
  deriving DecidableEq

/-- The fields of a request that decide what is remembered of its turn. -/
structure Request where
  kind : ReqKind
  api : ApiStyle
  promptText : Bytes
  thinkMode : ThinkMode
  hasTools : Bool
  promptPreservesReasoning : Bool
  reasoningSummaryEmit : Bool

/-- What the chat parsers set once the messages and the active schemas are known. -/
def chatRequest (api : ApiStyle) (msgs : List ChatMsg) (toolSchemas : Bytes) (mode : ThinkMode)
    (summary : Bool) : Request where
  kind := .chat
  api := api
  promptText := renderChatPromptText msgs toolSchemas mode
  thinkMode := mode
  hasTools := decide (toolSchemas ≠ [])
  promptPreservesReasoning := chatHistoryUsesToolContext msgs toolSchemas
  reasoningSummaryEmit := summary

/-- A finished turn as it was parsed. `inside` says that its thought was left open. -/
structure FinishedTurn where
  content : Bytes
  reasoning : Bytes
  calls : ToolCalls
  finish : Finish
  inside : Bool

/-- Parsed calls override how the generation ended. -/
def FinishedTurn.finalFinish (t : FinishedTurn) : Finish :=
  if t.calls.v = [] then t.finish else .toolCalls

/-- The reasoning that a Responses client sees and replays. -/
def visibleReasoning (r : Request) (t : FinishedTurn) : Bytes :=
  if r.reasoningSummaryEmit && decide (t.calls.v ≠ []) then t.reasoning else []

def buildResponsesVisibleAssistantSuffix (r : Request) (t : FinishedTurn) : Bytes :=
  (if thinkModeEnabled r.thinkMode then visibleReasoning r t ++ thinkClose else []) ++
    t.content ++ dsmlToolCallsText t.calls ++ endOfSentence

def buildToollessThinkingVisibleText (r : Request) (content : Bytes) : Option Bytes :=
  if thinkModeEnabled r.thinkMode = true ∧ thinkOpen <:+ r.promptText then
    some (r.promptText.take (r.promptText.length - thinkOpen.length) ++ thinkClose ++ content ++
      endOfSentence)
  else none

def shouldRememberThinkingCheckpoint (r : Request) (t : FinishedTurn) : Bool :=
  r.kind == .chat && !r.hasTools && !r.promptPreservesReasoning &&
    thinkModeEnabled r.thinkMode && t.finalFinish != .error && t.finalFinish != .length &&
    !t.inside

/-- The key that `generate_job` leaves for the lookup of the request's protocol. -/
def rememberedVisible (r : Request) (t : FinishedTurn) : Option Bytes :=
  match r.api with
  | .responses =>
      if t.finalFinish = .error ∨ t.finalFinish = .length then none
      else some (r.promptText ++ buildResponsesVisibleAssistantSuffix r t)
  | _ =>
      if t.calls.v = [] ∧ shouldRememberThinkingCheckpoint r t = true then
        buildToollessThinkingVisibleText r t.content
      else none

/-- The comparison of both visible lookups. -/
def visiblePrefixMatches (key prompt : Bytes) : Bool :=
  decide (key.length < prompt.length) && decide (key <+: prompt)

/-- The turn in the client's next history: content and calls, and of its reasoning only what
the client was shown. -/
def replayedMsg (r : Request) (t : FinishedTurn) : ChatMsg where
  role := lit "assistant"
  content := t.content
  reasoning := if r.api = .responses then visibleReasoning r t else []
  calls := t.calls

section Lookup
variable {key prompt tail : Bytes}

theorem matches_of_append (h : prompt = key ++ tail) (htail : tail ≠ []) :
    visiblePrefixMatches key prompt = true := by
  have := List.length_pos_of_ne_nil htail
  simp [visiblePrefixMatches, h, this]

theorem not_matches_of_apart {x y : Bytes} (h : Apart x y) (hk : x <+: key) (hp : y <+: prompt) :
    visiblePrefixMatches key prompt = false := by
  obtain ⟨u, rfl⟩ := hk
  obtain ⟨v, rfl⟩ := hp
  have := (h.append u v).1
  simp [visiblePrefixMatches, this]

end Lookup

section History
variable {msgs : List ChatMsg}

/-- A user turn that is open behind the history stands behind all its answers. -/
theorem answers_before_open {p : Bool} {i : ℕ} (h : pendingAfter p msgs = true) :
    answers p i msgs = [] ∨ ∃ k m, msgs[k]? = some m ∧ roleIsUserLike m.role = true ∧
      ∀ j ∈ answers p i msgs, j < i + k := by
  induction msgs using List.reverseRecOn with
  | nil => exact Or.inl rfl
  | append_singleton ms m ih =>
    have hlast : pendingAfter p (ms ++ [m]) = nextPending (pendingAfter p ms) m := by
      simp [pendingAfter, List.foldl_append]
    rw [hlast, nextPending, Bool.and_eq_true, Bool.not_eq_true'] at h
    have hsame : answers p i (ms ++ [m]) = answers p i ms := by
      simp [answers_append, answers, h.1]
    rw [hsame]
    rcases Bool.or_eq_true_iff.mp h.2 with hp | hu
    · rcases ih hp with hnil | ⟨k, q, hk, hq, hlt⟩
      · exact Or.inl hnil
      · refine Or.inr ⟨k, q, ?_, hq, hlt⟩
        rwa [List.getElem?_append_left (List.getElem?_eq_some_iff.mp hk).1]
    · exact Or.inr ⟨ms.length, m, by simp, hu, fun j hj => (answers_lt hj).2⟩

theorem not_after_lastUser {j : ℕ} (h : pendingAfter false msgs = true)
    (hj : j ∈ answers false 0 msgs) : ¬ lastUserIdx msgs < j := by
  intro hlt
  rcases answers_before_open (i := 0) h with hnil | ⟨k, m, hk, hu, hall⟩
  · simp [hnil] at hj
  · have h1 := hall j hj
    have h2 := lastUserIdx_lt_iff.mp hlt k m hk hu
    omega

/-- A history without an open user turn ends in the marker of its last answer, or it has
no answer at all. -/
theorem renderMsgs_closed (think : Bool) (sh : ℕ → Bool) (i : ℕ) (s : RenderState)
    (h : pendingAfter s.pendingAssistant msgs = false) :
    answers s.pendingAssistant i msgs = [] ∨
      endOfSentence <:+ (renderMsgs think sh i msgs s).out := by
  induction msgs using List.reverseRecOn with
  | nil => exact Or.inl rfl
  | append_singleton ms m ih =>
    have hlast : pendingAfter s.pendingAssistant (ms ++ [m]) =
        nextPending (pendingAfter s.pendingAssistant ms) m := by
      simp [pendingAfter, List.foldl_append]
    cases ha : roleIsAssistant m.role with
    | true =>
      obtain ⟨x, hx⟩ := renderMsgs_assistant think sh i ms s ha
      rw [hx]
      exact Or.inr (List.suffix_append x endOfSentence)
    | false =>
      rw [hlast, nextPending, ha] at h
      simp only [Bool.not_false, Bool.true_and, Bool.or_eq_false_iff] at h
      have hid : renderMsg think (sh (i + ms.length)) (renderMsgs think sh i ms s) m =
          renderMsgs think sh i ms s := by
        have huser : ¬ m.role = lit "user" := fun he => by simp [userLike_of_user he] at h
        have htool : ¬ roleIsTool m.role = true := fun he => by simp [userLike_of_tool he] at h
        simp [renderMsg, huser, htool, ha]
      have hsame : answers s.pendingAssistant i (ms ++ [m]) =
          answers s.pendingAssistant i ms := by
        simp [answers_append, answers, ha]
      rw [renderMsgs_append, renderMsgs, renderMsgs, hid, hsame]
      exact ih h.1

end History

/-- The history of the next request: the replayed turn and one more message. -/
def nextHistory (r : Request) (t : FinishedTurn) (msgs : List ChatMsg) (next : ChatMsg) :
    List ChatMsg :=
  msgs ++ [replayedMsg r t, next]

section NextPrompt
variable {r : Request} {t : FinishedTurn} {msgs : List ChatMsg} {next : ChatMsg}
  {schemas : Bytes} {mode : ThinkMode}

/-- The buffer behind the common history. -/
def bodyText (msgs : List ChatMsg) (schemas : Bytes) (mode : ThinkMode) (keep : ℕ → Bool) :
    Bytes :=
  (renderMsgs (thinkModeEnabled mode) keep 0 msgs ⟨promptHead msgs schemas mode, false, false⟩).out

/-- What the replayed turn adds to the buffer. -/
def replayText (r : Request) (t : FinishedTurn) (think open_ kept : Bool) : Bytes :=
  (if open_ then assistantMark ++ thinkText think kept (replayedMsg r t).reasoning else []) ++
    (t.content ++ (dsmlToolCallsText t.calls ++ endOfSentence))

theorem prompt_eq_body :
    renderChatPromptText msgs schemas mode =
      bodyText msgs schemas mode (keepsReasoning msgs schemas) ++
        if pendingAfter false msgs then openTurn (thinkModeEnabled mode) else [] := by
  rw [renderChatPromptText, renderEnd, bodyText, renderMsgs_pending]

theorem context_next (hnext : roleIsUserLike next.role = true) :
    chatHistoryUsesToolContext (nextHistory r t msgs next) schemas =
      (chatHistoryUsesToolContext msgs schemas ||
        (decide (t.calls.v ≠ []) || roleIsTool next.role)) := by
  have ha : roleIsAssistant (replayedMsg r t).role = true := rfl
  have ht : roleIsTool (replayedMsg r t).role = false := rfl
  have hcalls : (replayedMsg r t).calls = t.calls := rfl
  simp [chatHistoryUsesToolContext, nextHistory, List.any_append, msgUsesTools, ha, ht, hcalls,
    not_assistant_of_userLike hnext, Bool.or_assoc]

/-- Up to the replayed turn, the thoughts are kept by tool context alone. -/
theorem keeps_next (r : Request) (t : FinishedTurn) (schemas : Bytes)
    (hnext : roleIsUserLike next.role = true) {j : ℕ} (hj : j ≤ msgs.length) :
    keepsReasoning (nextHistory r t msgs next) schemas j =
      chatHistoryUsesToolContext (nextHistory r t msgs next) schemas := by
  have hlt : ¬ lastUserIdx (nextHistory r t msgs next) < j := by
    intro h
    have := lastUserIdx_lt_iff.mp h (msgs.length + 1) next (by simp [nextHistory]) hnext
    omega
  simp [keepsReasoning, hlt]

theorem keeps_of_open (hopen : pendingAfter false msgs = true) {j : ℕ}
    (hj : j ∈ answers false 0 msgs) :
    keepsReasoning msgs schemas j = chatHistoryUsesToolContext msgs schemas := by
  simp [keepsReasoning, not_after_lastUser hopen hj]

/-- The text of a user or tool message behind an answer, with the prefix of the turn it
opens. -/
def nextText (think : Bool) (next : ChatMsg) : Bytes :=
  renderEnd think (renderMsg think true ⟨[], false, false⟩ next)

theorem nextText_ne_nil (think : Bool) (hnext : roleIsUserLike next.role = true) :
    nextText think next ≠ [] := by
  have hmark : assistantMark ≠ [] := by decide
  simp [nextText, renderEnd, nextPending, not_assistant_of_userLike hnext, hnext, openTurn, hmark]

theorem nextPrompt_eq (hnext : roleIsUserLike next.role = true) :
    renderChatPromptText (nextHistory r t msgs next) schemas mode =
      bodyText msgs schemas mode (keepsReasoning (nextHistory r t msgs next) schemas) ++
        replayText r t (thinkModeEnabled mode) (pendingAfter false msgs)
          (chatHistoryUsesToolContext (nextHistory r t msgs next) schemas) ++
        nextText (thinkModeEnabled mode) next := by
  set keep := keepsReasoning (nextHistory r t msgs next) schemas with hkeep
  set think := thinkModeEnabled mode with hthink
  have hsys : ∀ q ∈ [replayedMsg r t, next], roleIsSystem q.role = false := by
    intro q hq
    rcases List.mem_cons.mp hq with rfl | hq
    · exact not_system_of_assistant rfl
    · obtain rfl := List.mem_singleton.mp hq
      exact not_system_of_userLike hnext
  have hturn : ∀ s : RenderState, renderMsg think (keep msgs.length) s (replayedMsg r t) =
      RenderState.prepend (s.out ++ replayText r t think s.pendingAssistant
        (keep msgs.length)) ⟨[], false, false⟩ := by
    intro s
    have ha : roleIsAssistant (replayedMsg r t).role = true := rfl
    rw [renderMsg_assistant s ha, RenderState.prepend, replayText]
    simp [replayedMsg]
  have hshown : renderMsg think (keep (msgs.length + 1)) ⟨[], false, false⟩ next =
      renderMsg think true ⟨[], false, false⟩ next := by
    apply renderMsg_congr
    intro _ _ hp
    exact absurd hp Bool.false_ne_true
  have hk := keeps_next r t schemas hnext (le_refl msgs.length)
  rw [← hkeep] at hk
  rw [renderChatPromptText, nextHistory, renderMsgs_append, promptHead_append schemas mode hsys,
    ← nextHistory, ← hkeep, ← hthink, renderMsgs, renderMsgs, renderMsgs, Nat.zero_add, hturn,
    renderMsg_prepend, hshown, renderEnd_prepend, renderMsgs_pending, hk, bodyText, nextText]

end NextPrompt

end Ds4.Chat
