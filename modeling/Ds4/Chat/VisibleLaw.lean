import Ds4.Chat.VisibleKey

/-! When the remembered transcript begins the next prompt, so that the live session is
found again. -/
namespace Ds4.Chat
open Ds4.Dsml Ds4.Search

variable {api : ApiStyle} {msgs : List ChatMsg} {schemas : Bytes} {mode : ThinkMode}
  {summary : Bool} {t : FinishedTurn} {next : ChatMsg} {key : Bytes}

/-- The turn and a next message of the given role bring tool context of their own. -/
def BringsTools (t : FinishedTurn) (role : Bytes) : Prop :=
  t.calls.v ≠ [] ∨ roleIsTool role = true

instance (t : FinishedTurn) (role : Bytes) : Decidable (BringsTools t role) :=
  inferInstanceAs (Decidable (_ ∨ _))

/-- The condition for a Responses turn: no thinking, or an open user turn and thoughts that
the next rendering keeps without uncovering older ones. -/
def ResponsesKeyKept (msgs : List ChatMsg) (schemas : Bytes) (mode : ThinkMode)
    (t : FinishedTurn) (role : Bytes) : Prop :=
  thinkModeEnabled mode = true →
    pendingAfter false msgs = true ∧ (chatHistoryUsesToolContext msgs schemas = true ∨
      (answers false 0 msgs = [] ∧ BringsTools t role))

/-- The condition for the other protocols: an open user turn, and a plain user message. -/
def ThinkingKeyKept (msgs : List ChatMsg) (role : Bytes) : Prop :=
  pendingAfter false msgs = true ∧ roleIsTool role = false

def VisibleKeyKept (api : ApiStyle) (msgs : List ChatMsg) (schemas : Bytes) (mode : ThinkMode)
    (t : FinishedTurn) (role : Bytes) : Prop :=
  if api = .responses then ResponsesKeyKept msgs schemas mode t role
  else ThinkingKeyKept msgs role

instance {role : Bytes} : Decidable (ResponsesKeyKept msgs schemas mode t role) :=
  inferInstanceAs (Decidable (_ → _ ∧ _))

instance {role : Bytes} : Decidable (ThinkingKeyKept msgs role) :=
  inferInstanceAs (Decidable (_ ∧ _))

instance {role : Bytes} : Decidable (VisibleKeyKept api msgs schemas mode t role) := by
  unfold VisibleKeyKept
  infer_instance

section Bodies

theorem context_next_iff (r : Request) (t : FinishedTurn) (msgs : List ChatMsg) (schemas : Bytes)
    (hnext : roleIsUserLike next.role = true) :
    chatHistoryUsesToolContext (nextHistory r t msgs next) schemas = true ↔
      chatHistoryUsesToolContext msgs schemas = true ∨ BringsTools t next.role := by
  rw [context_next hnext, BringsTools]
  simp

/-- Without answers there are no thoughts to differ in. -/
theorem bodyText_eq_of_no_answers (sh sh' : ℕ → Bool) (h : answers false 0 msgs = []) :
    bodyText msgs schemas mode sh = bodyText msgs schemas mode sh' := by
  refine congrArg RenderState.out (renderMsgs_congr fun _ j hj => ?_)
  simp [h] at hj

theorem bodyText_next_eq (r : Request) (t : FinishedTurn) (msgs : List ChatMsg) (schemas : Bytes)
    (mode : ThinkMode) (hnext : roleIsUserLike next.role = true)
    (hopen : thinkModeEnabled mode = true → pendingAfter false msgs = true ∧
      (answers false 0 msgs = [] ∨ chatHistoryUsesToolContext msgs schemas =
        chatHistoryUsesToolContext (nextHistory r t msgs next) schemas)) :
    bodyText msgs schemas mode (keepsReasoning (nextHistory r t msgs next) schemas) =
      bodyText msgs schemas mode (keepsReasoning msgs schemas) := by
  refine congrArg RenderState.out (renderMsgs_congr fun ht j hj => ?_)
  obtain ⟨hp, hnil | hctx⟩ := hopen ht
  · simp [hnil] at hj
  · have hlt := (answers_lt hj).2
    rw [keeps_next r t schemas hnext (by omega), keeps_of_open hp hj, hctx]

theorem bodyText_next_apart (r : Request) (t : FinishedTurn) (schemas : Bytes) (mode : ThinkMode)
    (hnext : roleIsUserLike next.role = true)
    (ht : thinkModeEnabled mode = true) (hopen : pendingAfter false msgs = true)
    (hans : answers false 0 msgs ≠ [])
    (hctx : chatHistoryUsesToolContext msgs schemas ≠
      chatHistoryUsesToolContext (nextHistory r t msgs next) schemas) :
    Apart (bodyText msgs schemas mode (keepsReasoning msgs schemas))
      (bodyText msgs schemas mode (keepsReasoning (nextHistory r t msgs next) schemas)) := by
  obtain ⟨j, hj⟩ := List.exists_mem_of_ne_nil _ hans
  rw [bodyText, bodyText, ht]
  refine renderMsgs_apart ⟨j, hj, ?_⟩
  have hlt := (answers_lt hj).2
  rwa [keeps_next r t schemas hnext (by omega), keeps_of_open hopen hj]

end Bodies

theorem chatRequest_thinkMode : (chatRequest api msgs schemas mode summary).thinkMode = mode := rfl

section Responses

theorem responses_key (h : rememberedVisible (chatRequest .responses msgs schemas mode summary) t =
      some key) :
    key = renderChatPromptText msgs schemas mode ++ buildResponsesVisibleAssistantSuffix
      (chatRequest .responses msgs schemas mode summary) t := by
  simp only [rememberedVisible, chatRequest] at h
  split_ifs at h
  exact (Option.some.inj h).symm

/-- The suffix is the replayed turn without its opening mark. -/
theorem responses_suffix (kept : Bool) (hk : thinkModeEnabled mode = true → kept = true) :
    openTurn (thinkModeEnabled mode) ++ buildResponsesVisibleAssistantSuffix
        (chatRequest .responses msgs schemas mode summary) t =
      replayText (chatRequest .responses msgs schemas mode summary) t (thinkModeEnabled mode) true
        kept := by
  cases ht : thinkModeEnabled mode with
  | true =>
    rw [hk ht]
    simp [openTurn, buildResponsesVisibleAssistantSuffix, replayText, thinkText, replayedMsg,
      chatRequest, ht]
  | false =>
    simp [openTurn, buildResponsesVisibleAssistantSuffix, replayText, thinkText, chatRequest, ht]

theorem responses_key_kept (hkey : rememberedVisible
      (chatRequest .responses msgs schemas mode summary) t = some key)
    (hnext : roleIsUserLike next.role = true)
    (hc : ResponsesKeyKept msgs schemas mode t next.role) :
    visiblePrefixMatches key (renderChatPromptText
      (nextHistory (chatRequest .responses msgs schemas mode summary) t msgs next) schemas mode) =
        true := by
  set r := chatRequest .responses msgs schemas mode summary with hr
  have hctx : thinkModeEnabled mode = true →
      chatHistoryUsesToolContext (nextHistory r t msgs next) schemas = true := by
    intro ht
    refine (context_next_iff r t msgs schemas hnext).mpr ?_
    exact (hc ht).2.imp id And.right
  have hbody : bodyText msgs schemas mode (keepsReasoning (nextHistory r t msgs next) schemas) =
      bodyText msgs schemas mode (keepsReasoning msgs schemas) := by
    refine bodyText_next_eq r t msgs schemas mode hnext fun ht => ⟨(hc ht).1, ?_⟩
    rcases (hc ht).2 with h0 | h0
    · exact Or.inr (by rw [h0, hctx ht])
    · exact Or.inl h0.1
  refine matches_of_append ?_ (nextText_ne_nil (thinkModeEnabled mode) hnext)
  rw [nextPrompt_eq hnext, hbody, responses_key hkey, prompt_eq_body, List.append_left_inj,
    List.append_assoc, List.append_right_inj]
  cases hp : pendingAfter false msgs with
  | true => exact (responses_suffix _ hctx).symm
  | false =>
    have ht : thinkModeEnabled mode = false := by
      cases ht : thinkModeEnabled mode with
      | false => rfl
      | true => simp [(hc ht).1] at hp
    simp [replayText, buildResponsesVisibleAssistantSuffix, chatRequest, ht]

theorem bodyText_eq_or_apart (mode : ThinkMode) (sh sh' : ℕ → Bool) :
    bodyText msgs schemas mode sh = bodyText msgs schemas mode sh' ∨
      Apart (bodyText msgs schemas mode sh) (bodyText msgs schemas mode sh') :=
  (renderMsgs_eq_or_apart _ sh sh' 0 msgs _).imp (congrArg RenderState.out) id

/-- Behind an open user turn the key is lost with every next message. -/
theorem responses_key_lost_open (hkey : rememberedVisible
      (chatRequest .responses msgs schemas mode summary) t = some key)
    (next : ChatMsg) (hnext : roleIsUserLike next.role = true) (ht : thinkModeEnabled mode = true)
    (hopen : pendingAfter false msgs = true)
    (hctx : chatHistoryUsesToolContext msgs schemas = false)
    (hc : answers false 0 msgs = [] → ¬ BringsTools t next.role) :
    visiblePrefixMatches key (renderChatPromptText
      (nextHistory (chatRequest .responses msgs schemas mode summary) t msgs next) schemas mode) =
        false := by
  set r := chatRequest .responses msgs schemas mode summary with hr
  rw [responses_key hkey, prompt_eq_body, nextPrompt_eq hnext, hopen]
  cases hnew : chatHistoryUsesToolContext (nextHistory r t msgs next) schemas with
  | true =>
    have hans : answers false 0 msgs ≠ [] := by
      intro hnil
      rcases (context_next_iff r t msgs schemas hnext).mp hnew with h0 | hb
      · simp [hctx] at h0
      · exact hc hnil hb
    have hap := bodyText_next_apart r t schemas mode hnext ht hopen hans
      (by rw [hctx, hnew]; exact Bool.false_ne_true)
    exact not_matches_of_apart hap (by simp) (by simp)
  | false =>
    have hbody := bodyText_next_eq r t msgs schemas mode hnext fun _ =>
      ⟨hopen, Or.inr (by rw [hctx, hnew])⟩
    have hap : Apart thinkOpen thinkClose := by decide
    rw [hbody]
    refine not_matches_of_apart ((hap.prepend assistantMark).prepend
      (bodyText msgs schemas mode (keepsReasoning msgs schemas))) ?_ ?_
    · simp [openTurn, ht]
    · simp [replayText, thinkText, ht]

/-- A user or tool message without text. -/
def bareMsg (role : Bytes) : ChatMsg := ⟨role, [], [], ⟨[], none⟩⟩

/-- Without an open user turn the key closes a thought that no rendering writes. -/
theorem responses_key_lost_closed {role : Bytes} (hkey : rememberedVisible
      (chatRequest .responses msgs schemas mode summary) t = some key)
    (hrole : roleIsUserLike role = true) (ht : thinkModeEnabled mode = true)
    (hopen : pendingAfter false msgs = false) :
    visiblePrefixMatches key (renderChatPromptText
      (nextHistory (chatRequest .responses msgs schemas mode summary) t msgs (bareMsg role))
        schemas mode) = false := by
  set r := chatRequest .responses msgs schemas mode summary with hr
  rw [responses_key hkey, prompt_eq_body, nextPrompt_eq hrole, hopen]
  rcases bodyText_eq_or_apart mode (keepsReasoning msgs schemas)
    (keepsReasoning (nextHistory r t msgs (bareMsg role)) schemas) with hbody | hap
  · have hmark : ¬ endOfSentence <:+: (endOfSentence ++ nextText true (bareMsg role)).tail := by
      simp only [roleIsUserLike, roleIsTool, Bool.or_eq_true, beq_iff_eq] at hrole
      apply absent_of_find_none
      rcases hrole with rfl | rfl | rfl <;> decide
    have hne : visibleReasoning r t ++ thinkClose ≠ [] := by
      have : thinkClose ≠ [] := by decide
      simp [this]
    have hshift := not_prefix_of_shift (s := t.content ++ dsmlToolCallsText t.calls) hne hmark
    rw [visiblePrefixMatches, Bool.and_eq_false_iff, decide_eq_false_iff_not,
      decide_eq_false_iff_not]
    refine Or.inr fun hp => hshift ?_
    rw [← hbody] at hp
    simpa [buildResponsesVisibleAssistantSuffix, replayText, chatRequest_thinkMode, hr, ht] using hp
  · exact not_matches_of_apart hap (by simp) (by simp)

end Responses

section Thinking

/-- What is known of a turn remembered for the other protocols. -/
theorem thinking_key (hapi : api ≠ .responses)
    (h : rememberedVisible (chatRequest api msgs schemas mode summary) t = some key) :
    t.calls.v = [] ∧ thinkModeEnabled mode = true ∧
      chatHistoryUsesToolContext msgs schemas = false ∧
        ∃ x, renderChatPromptText msgs schemas mode = x ++ thinkOpen ∧
          key = x ++ (thinkClose ++ (t.content ++ endOfSentence)) := by
  have h' : (if t.calls.v = [] ∧ shouldRememberThinkingCheckpoint
      (chatRequest api msgs schemas mode summary) t = true then
        buildToollessThinkingVisibleText (chatRequest api msgs schemas mode summary) t.content
      else none) = some key := by
    cases api with
    | responses => exact absurd rfl hapi
    | openai => exact h
    | anthropic => exact h
  split_ifs at h' with hc
  obtain ⟨hcalls, hshould⟩ := hc
  simp only [shouldRememberThinkingCheckpoint, chatRequest, Bool.and_eq_true,
    Bool.not_eq_true'] at hshould
  simp only [buildToollessThinkingVisibleText] at h'
  split_ifs at h' with hb
  obtain ⟨x, hx⟩ := hb.2
  have hx' : renderChatPromptText msgs schemas mode = x ++ thinkOpen := hx.symm
  refine ⟨hcalls, hb.1, hshould.1.1.1.1.2, x, hx', ?_⟩
  have := (Option.some.inj h').symm
  rw [← hx] at this
  simpa using this

theorem thinking_key_kept (hapi : api ≠ .responses) (hkey : rememberedVisible
      (chatRequest api msgs schemas mode summary) t = some key)
    (hnext : roleIsUserLike next.role = true) (hc : ThinkingKeyKept msgs next.role) :
    visiblePrefixMatches key (renderChatPromptText
      (nextHistory (chatRequest api msgs schemas mode summary) t msgs next) schemas mode) =
        true := by
  set r := chatRequest api msgs schemas mode summary with hr
  obtain ⟨hcalls, ht, hctx, x, hx, rfl⟩ := thinking_key hapi hkey
  have hnew : chatHistoryUsesToolContext (nextHistory r t msgs next) schemas = false := by
    rw [context_next hnext, hctx, hcalls, hc.2]
    rfl
  have hbody := bodyText_next_eq r t msgs schemas mode hnext fun _ =>
    ⟨hc.1, Or.inr (by rw [hctx, hnew])⟩
  rw [prompt_eq_body, hc.1, ht, ← hbody] at hx
  simp only [openTurn, ↓reduceIte, ← List.append_assoc, List.append_left_inj] at hx
  refine matches_of_append ?_ (nextText_ne_nil (thinkModeEnabled mode) hnext)
  rw [nextPrompt_eq hnext, hc.1, hnew, ← hx, ht]
  simp [replayText, thinkText, dsmlToolCallsText, hcalls]

theorem thinking_key_lost (hapi : api ≠ .responses) (hkey : rememberedVisible
      (chatRequest api msgs schemas mode summary) t = some key)
    (next : ChatMsg) (hnext : roleIsUserLike next.role = true)
    (hc : ¬ ThinkingKeyKept msgs next.role) :
    visiblePrefixMatches key (renderChatPromptText
      (nextHistory (chatRequest api msgs schemas mode summary) t msgs next) schemas mode) =
        false := by
  set r := chatRequest api msgs schemas mode summary with hr
  obtain ⟨-, ht, hctx, x, hx, rfl⟩ := thinking_key hapi hkey
  have hap : Apart thinkClose thinkOpen := by decide
  rw [prompt_eq_body] at hx
  rw [nextPrompt_eq hnext]
  cases hp : pendingAfter false msgs with
  | true =>
    have htool : roleIsTool next.role = true := by
      cases h : roleIsTool next.role with
      | true => rfl
      | false => exact absurd ⟨hp, h⟩ hc
    have hnew := (context_next_iff r t msgs schemas hnext).mpr (Or.inr (Or.inr htool))
    rw [hp, ht] at hx
    simp only [openTurn, ↓reduceIte, ← List.append_assoc, List.append_left_inj] at hx
    by_cases hans : answers false 0 msgs = []
    · rw [bodyText_eq_of_no_answers _ (keepsReasoning msgs schemas) hans, hnew, ht]
      refine not_matches_of_apart (hap.prepend x) (by simp) ?_
      simp [← hx, replayText, thinkText]
    · refine not_matches_of_apart (bodyText_next_apart r t schemas mode hnext
        ht hp hans ?_) ?_ (by simp)
      · rw [hctx, hnew]
        exact Bool.false_ne_true
      · simp [← hx]
  | false =>
    rw [hp] at hx
    simp only [Bool.false_eq_true, ↓reduceIte, List.append_nil] at hx
    rcases renderMsgs_closed (thinkModeEnabled mode) (keepsReasoning msgs schemas) 0
      ⟨promptHead msgs schemas mode, false, false⟩ hp with hans | heos
    · rw [bodyText_eq_of_no_answers _ (keepsReasoning msgs schemas) hans, hx]
      exact not_matches_of_apart (hap.prepend x) (by simp) (by simp)
    · -- a closed turn ends in the marker, not in an open thought
      have hopen : thinkOpen <:+ bodyText msgs schemas mode (keepsReasoning msgs schemas) :=
        hx ▸ List.suffix_append x thinkOpen
      rcases List.suffix_or_suffix_of_suffix hopen heos with h | h
      · exact absurd h (by decide)
      · exact absurd h (by decide)

end Thinking

/-- The law for one remembered turn and one role of the next message: the key is found in
every later prompt exactly under the condition. -/
theorem visibleKey_found_iff {role : Bytes} (hkey : rememberedVisible
      (chatRequest api msgs schemas mode summary) t = some key)
    (hrole : roleIsUserLike role = true) :
    (∀ next : ChatMsg, next.role = role → visiblePrefixMatches key (renderChatPromptText
      (nextHistory (chatRequest api msgs schemas mode summary) t msgs next) schemas mode) =
        true) ↔ VisibleKeyKept api msgs schemas mode t role := by
  by_cases hapi : api = .responses
  · subst hapi
    rw [VisibleKeyKept, if_pos rfl]
    constructor
    · intro hall ht
      have hbare := hall (bareMsg role) rfl
      cases hopen : pendingAfter false msgs with
      | false =>
        have hlost := responses_key_lost_closed hkey hrole ht hopen
        rw [hbare] at hlost
        exact absurd hlost.symm Bool.false_ne_true
      | true =>
        refine ⟨rfl, ?_⟩
        by_contra hc
        push Not at hc
        have hlost := responses_key_lost_open hkey (bareMsg role) hrole ht hopen
          (Bool.eq_false_iff.mpr hc.1) hc.2
        rw [hbare] at hlost
        exact absurd hlost.symm Bool.false_ne_true
    · rintro hc next rfl
      exact responses_key_kept hkey hrole hc
  · rw [VisibleKeyKept, if_neg hapi]
    constructor
    · intro hall
      by_contra hc
      have hlost := thinking_key_lost hapi hkey (bareMsg role) hrole hc
      rw [hall (bareMsg role) rfl] at hlost
      exact absurd hlost.symm Bool.false_ne_true
    · rintro hc next rfl
      exact thinking_key_kept hapi hkey hrole hc

/-- A plain answer. -/
def plainAnswer : FinishedTurn := ⟨lit "Hello", lit "greet", ⟨[], none⟩, .stop, false⟩

theorem plainAnswer_found :
    ∃ key, rememberedVisible (chatRequest .openai [plainTurn "user" "hi"] [] .high false)
        plainAnswer = some key ∧
      ∀ next : ChatMsg, next.role = lit "user" → visiblePrefixMatches key (renderChatPromptText
        (nextHistory (chatRequest .openai [plainTurn "user" "hi"] [] .high false) plainAnswer
          [plainTurn "user" "hi"] next) [] .high) = true := by
  have hkey := (Option.some_get (show (rememberedVisible
    (chatRequest .openai [plainTurn "user" "hi"] [] .high false) plainAnswer).isSome = true by
      decide)).symm
  exact ⟨_, hkey, (visibleKey_found_iff hkey (by decide)).mpr (by decide)⟩

/-- The same answer over Responses: the key keeps the opened thought that the next
rendering leaves out. -/
theorem plainAnswer_lost :
    ∃ key, rememberedVisible (chatRequest .responses [plainTurn "user" "hi"] [] .high false)
        plainAnswer = some key ∧
      visiblePrefixMatches key (renderChatPromptText
        (nextHistory (chatRequest .responses [plainTurn "user" "hi"] [] .high false) plainAnswer
          [plainTurn "user" "hi"] (plainTurn "user" "again")) [] .high) = false :=
  ⟨_, rfl, responses_key_lost_open rfl _ (by decide) (by decide) (by decide) (by decide)
    (by decide)⟩

end Ds4.Chat
