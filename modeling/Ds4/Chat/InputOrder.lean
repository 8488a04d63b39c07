import Ds4.Chat.ItemSteps

/-! Which inputs keep all their reasoning, in its place. -/
namespace Ds4.Chat
open Ds4.Dsml

/-- Whether the next item that is not bookkeeping is a call. -/
def callNext : List Item → Bool
  | .bookkeeping :: its => callNext its
  | .call _ :: _ => true
  | _ => false

/-- What has come behind the last user or tool message: nothing to read (`fresh`), one
assistant message without text (`bare`), more without text (`spent`), or some text or call;
in front of the first such message the place is `used`, too. -/
inductive Slot where
  | fresh | bare | spent | used
  deriving DecidableEq

def Slot.behindOther : Slot → Slot
  | .bare => .spent
  | s => s

def Slot.behindEmptyAnswer : Slot → Slot
  | .fresh => .bare
  | .bare => .spent
  | s => s

def Slot.next (slot : Slot) : Item → Slot
  | .message role content =>
      if roleIsUserLike role then .fresh
      else if roleIsAssistant role then
        if content = [] then slot.behindEmptyAnswer else .used
      else slot.behindOther
  | .call _ => .used
  | .output _ _ => .fresh
  | .reasoning summary content =>
      if joinText (lit "\n") summary content = [] then slot else .used
  | .bookkeeping => slot

/-- Reasoning with text directly follows a user or tool message, or it stands between one
assistant message without text and a call. -/
def thoughtsPlaced : Slot → List Item → Bool
  | _, [] => true
  | slot, it :: its =>
      (!it.events.any Event.isThought || slot == .fresh || (slot == .bare && callNext its)) &&
        thoughtsPlaced (slot.next it) its

section Records
variable {p : Bool} {m : ChatMsg}

theorem msgEvents_assistant (ha : roleIsAssistant m.role = true) :
    msgEvents p m = (if p then thoughtEvents m.reasoning else []) ++
      (answerEvents m.content ++ m.calls.v.map .call) := by
  have hu := not_userLike_of_assistant ha
  have huser : ¬ m.role = lit "user" := fun h => by simp [userLike_of_user h] at hu
  have htool : ¬ roleIsTool m.role = true := fun h => by simp [userLike_of_tool h] at hu
  rw [msgEvents, if_neg huser, if_neg htool, if_pos ha]

theorem msgEvents_other (hu : roleIsUserLike m.role = false) (ha : roleIsAssistant m.role = false) :
    msgEvents p m = [] := by
  have huser : ¬ m.role = lit "user" := fun h => by simp [userLike_of_user h] at hu
  have htool : ¬ roleIsTool m.role = true := fun h => by simp [userLike_of_tool h] at hu
  rw [msgEvents, if_neg huser, if_neg htool, ha, if_neg Bool.false_ne_true]

theorem msgEvents_userLike (hu : roleIsUserLike m.role = true) :
    ∃ e, msgEvents p m = [e] ∧ e.isUserLike = true ∧ e.isThought = false := by
  rw [msgEvents]
  by_cases huser : m.role = lit "user"
  · exact ⟨.user m.content, by rw [if_pos huser], rfl, rfl⟩
  · have htool : roleIsTool m.role = true := by simpa [roleIsUserLike, huser] using hu
    exact ⟨.output m.content, by rw [if_neg huser, if_pos htool], rfl, rfl⟩

theorem msgEvents_tool (content : Bytes) :
    msgEvents p (plainMsg (lit "tool") content) = [.output content] := by
  have huser : ¬ lit "tool" = lit "user" := by decide
  have htool : roleIsTool (lit "tool") = true := rfl
  simp [msgEvents, plainMsg, huser, htool]

theorem msgEvents_plain (role content : Bytes) :
    msgEvents p (plainMsg role content) = msgEvents false (plainMsg role content) := by
  simp [msgEvents, plainMsg, thoughtEvents]

theorem thoughtCount_thoughtEvents (r : Bytes) :
    thoughtCount (thoughtEvents r) = if r = [] then 0 else 1 := by
  by_cases h : r = [] <;> simp [thoughtEvents, h, thoughtCount, Event.isThought]

theorem thoughtCount_said (content : Bytes) (calls : List ToolCall) :
    thoughtCount (answerEvents content ++ calls.map .call) = 0 := by
  have hc : thoughtCount (calls.map Event.call) = 0 := by
    simp [thoughtCount, List.countP_eq_zero, Event.isThought]
  have ha : thoughtCount (answerEvents content) = 0 := by
    by_cases h : content = [] <;> simp [answerEvents, h, thoughtCount, Event.isThought]
  rw [thoughtCount_append, ha, hc]

theorem thoughtCount_assistant (ha : roleIsAssistant m.role = true) :
    thoughtCount (msgEvents p m) = if p = true ∧ m.reasoning ≠ [] then 1 else 0 := by
  rw [msgEvents_assistant ha, thoughtCount_append, thoughtCount_said]
  cases p with
  | false => simp [thoughtCount]
  | true => simp [thoughtCount_thoughtEvents]

theorem thoughtCount_plain (role content : Bytes) :
    thoughtCount (msgEvents p (plainMsg role content)) = 0 := by
  cases hu : roleIsUserLike role with
  | true =>
    obtain ⟨e, he, -, ht⟩ := msgEvents_userLike (p := p) (m := plainMsg role content) hu
    simp [he, thoughtCount, ht]
  | false =>
    cases ha : roleIsAssistant role with
    | true =>
      rw [thoughtCount_assistant (m := plainMsg role content) ha]
      simp [plainMsg]
    | false => simp [msgEvents_other (m := plainMsg role content) hu ha, thoughtCount]

theorem nextPending_assistant (ha : roleIsAssistant m.role = true) : nextPending p m = false := by
  simp [nextPending, ha]

theorem histEvents_flushed (st : InputState) :
    histEvents false (flushed st) = histEvents false st.msgs ++
      if pendingAfter false st.msgs then thoughtEvents st.pendingReasoning else [] := by
  have ha : roleIsAssistant (flushMsg st.pendingReasoning).role = true := rfl
  rw [flushed]
  split_ifs with hr hp
  · simp [hr, thoughtEvents]
  · simp
  · rw [histEvents_concat, msgEvents_assistant ha]
    simp [flushMsg, answerEvents, *]
  · rw [histEvents_concat, msgEvents_assistant ha]
    simp [flushMsg, answerEvents, *]

theorem pendingAfter_flushed (st : InputState) :
    pendingAfter false (flushed st) =
      (decide (st.pendingReasoning = []) && pendingAfter false st.msgs) := by
  have ha : roleIsAssistant (flushMsg st.pendingReasoning).role = true := rfl
  rw [flushed]
  split_ifs with hr
  · simp [hr]
  · rw [pendingAfter_concat, nextPending_assistant ha]
    simp [hr]

end Records

section Behind

/-- Thoughts are rendered directly behind a user or tool message only. -/
theorem behindUser_histEvents {p prev : Bool} {ms : List ChatMsg} (h : p = true → prev = true) :
    behindUser prev (histEvents p ms) = true := by
  induction ms generalizing p prev with
  | nil => rfl
  | cons m ms ih =>
    rw [histEvents, behindUser_append, Bool.and_eq_true]
    cases hu : roleIsUserLike m.role with
    | true =>
      obtain ⟨e, he, hl, ht⟩ := msgEvents_userLike (p := p) hu
      rw [he]
      refine ⟨by simp [behindUser, ht], ih fun _ => ?_⟩
      simpa [lastUserLike] using hl
    | false =>
      cases ha : roleIsAssistant m.role with
      | false =>
        rw [msgEvents_other hu ha]
        refine ⟨rfl, ih fun hp => ?_⟩
        simp only [nextPending, ha, hu, Bool.or_false, Bool.not_false, Bool.true_and] at hp
        exact h hp
      | true =>
        rw [nextPending_assistant ha]
        refine ⟨?_, ih fun hp => absurd hp Bool.false_ne_true⟩
        have hsaid : ∀ prev, behindUser prev
            (answerEvents m.content ++ m.calls.v.map .call) = true := by
          intro prev
          have hcalls : ∀ prev, behindUser prev (m.calls.v.map .call) = true := by
            intro prev
            induction m.calls.v generalizing prev with
            | nil => rfl
            | cons c cs ihc => simp [behindUser, Event.isThought, ihc]
          by_cases hc : m.content = [] <;>
            simp [answerEvents, hc, behindUser, Event.isThought, hcalls]
        rw [msgEvents_assistant ha, behindUser_append, hsaid, Bool.and_true]
        cases p with
        | false => rfl
        | true =>
          by_cases hr : m.reasoning = [] <;>
            simp [thoughtEvents, hr, behindUser, h rfl]

end Behind

section Counting

/-- The last message still takes a thought that is rendered: an answer without reasoning. -/
def attachable (msgs : List ChatMsg) : Bool :=
  match msgs.getLast? with
  | some m => roleIsAssistant m.role && m.reasoning == [] && pendingAfter false msgs.dropLast
  | none => false

def placeable (msgs : List ChatMsg) : Bool := pendingAfter false msgs || attachable msgs

/-- The thoughts rendered so far, and the pending one if it still can be. -/
def keptThoughts (st : InputState) : ℕ :=
  thoughtCount (histEvents false st.msgs) +
    if st.pendingReasoning ≠ [] ∧ placeable st.msgs = true then 1 else 0

theorem attachable_concat (pre : List ChatMsg) (m : ChatMsg) :
    attachable (pre ++ [m]) =
      (roleIsAssistant m.role && m.reasoning == [] && pendingAfter false pre) := by
  simp [attachable]

theorem thoughtCount_flushed_le (st : InputState) :
    thoughtCount (histEvents false (flushed st)) ≤ keptThoughts st := by
  rw [histEvents_flushed, thoughtCount_append, keptThoughts]
  apply Nat.add_le_add_left
  cases hp : pendingAfter false st.msgs with
  | false => simp [thoughtCount]
  | true =>
    simp only [↓reduceIte, thoughtCount_thoughtEvents, placeable, hp, Bool.true_or, and_true]
    split_ifs <;> simp_all

/-- No step brings back a thought that was lost. -/
theorem keptThoughts_step_le (st : InputState) (it : Item) :
    keptThoughts (stepItem st it) ≤ keptThoughts st + thoughtCount it.events := by
  cases it with
  | message role content =>
    cases ha : roleIsAssistant role with
    | false =>
      have h := thoughtCount_flushed_le st
      rw [stepItem_plain st content ha, Item.events, thoughtCount_plain]
      simp only [keptThoughts, histEvents_concat, thoughtCount_append, thoughtCount_plain,
        ne_eq, not_true_eq_false, false_and, ↓reduceIte]
      exact h
    | true =>
      rw [stepItem_answer st content ha, Item.events, thoughtCount_plain]
      simp only [keptThoughts, histEvents_concat, thoughtCount_append,
        thoughtCount_assistant (m := { plainMsg role content with reasoning := _ }) ha,
        ne_eq, not_true_eq_false, false_and, ↓reduceIte, placeable]
      split_ifs <;> simp_all
  | output content loaded =>
    have h := thoughtCount_flushed_le st
    rw [stepItem_output]
    refine le_trans (le_of_eq ?_) (h.trans (Nat.le_add_right _ _))
    simp [keptThoughts, histEvents_concat, thoughtCount_append, thoughtCount_plain]
  | reasoning summary content =>
    have h := thoughtCount_flushed_le st
    rw [stepItem_reasoning, Item.events, thoughtCount_thoughtEvents, keptThoughts]
    simp only
    split_ifs <;> simp_all
    all_goals omega
  | bookkeeping =>
    rw [stepItem_bookkeeping]
    exact Nat.le_add_right _ _
  | call tc =>
    have h := stepItem_call st tc
    generalize stepItem st (.call tc) = st' at h ⊢
    cases h with
    | attached pre m hmsgs ha hr hm =>
      have ha' : roleIsAssistant (pushCall { m with reasoning := st.pendingReasoning } tc).role =
          true := ha
      simp only [keptThoughts, hmsgs, histEvents_concat, thoughtCount_append,
        thoughtCount_assistant ha, thoughtCount_assistant ha', placeable, attachable_concat, ha, hm]
      simp [pushCall, hr, pendingAfter_concat, nextPending_assistant ha]
    | joined pre m hmsgs ha hr =>
      have ha' : roleIsAssistant (pushCall m tc).role = true := ha
      simp only [keptThoughts, hmsgs, histEvents_concat, thoughtCount_append,
        thoughtCount_assistant ha, thoughtCount_assistant ha', placeable, attachable_concat,
        pendingAfter_concat, nextPending_assistant ha, nextPending_assistant ha']
      exact Nat.le_add_right _ _
    | separate hlast =>
      have ha' : roleIsAssistant (pushCall (flushMsg st.pendingReasoning) tc).role = true := rfl
      simp only [keptThoughts, histEvents_concat, thoughtCount_append, thoughtCount_assistant ha']
      refine le_trans ?_ (Nat.le_add_right _ _)
      rw [Nat.add_assoc]
      apply Nat.add_le_add_left
      by_cases hr : st.pendingReasoning = []
      · simp [pushCall, flushMsg, hr]
      · cases hp : pendingAfter false st.msgs <;> simp [pushCall, flushMsg, placeable, hr, hp]

/-- What the last flush renders of the thoughts, over all the items to come. -/
theorem thoughtCount_finish_le (its : List Item) (st : InputState) :
    thoughtCount (histEvents false (flushed (its.foldl stepItem st))) ≤
      keptThoughts st + thoughtCount (its.flatMap Item.events) := by
  induction its generalizing st with
  | nil => exact (thoughtCount_flushed_le st).trans (Nat.le_add_right _ _)
  | cons it its ih =>
    have h := ih (stepItem st it)
    have hstep := keptThoughts_step_le st it
    rw [List.foldl_cons, List.flatMap_cons, thoughtCount_append]
    omega

end Counting

section Slots

/-- The last message is an answer with nothing in it. -/
def BareLast (msgs : List ChatMsg) : Prop :=
  ∃ pre m, msgs = pre ++ [m] ∧ roleIsAssistant m.role = true ∧ m.reasoning = [] ∧
    m.content = [] ∧ m.calls.v = [] ∧ pendingAfter false pre = true

/-- How the slot describes the messages and the events of the items so far. -/
def SlotInv (slot : Slot) (st : InputState) (seen : List Event) : Prop :=
  match slot with
  | .used => lastUserLike false seen = false
  | .fresh => lastUserLike false seen = true ∧ st.pendingReasoning = [] ∧
      pendingAfter false st.msgs = true
  | .bare => lastUserLike false seen = true ∧ st.pendingReasoning = [] ∧ BareLast st.msgs
  | .spent => lastUserLike false seen = true ∧ st.pendingReasoning = [] ∧
      placeable st.msgs = false

variable {slot : Slot} {st : InputState} {seen : List Event}

theorem BareLast.pending (h : BareLast st.msgs) : pendingAfter false st.msgs = false := by
  obtain ⟨pre, m, hmsgs, ha, -⟩ := h
  rw [hmsgs, pendingAfter_concat, nextPending_assistant ha]

theorem flushed_of_nil (h : st.pendingReasoning = []) : flushed st = st.msgs := by
  simp [flushed, h]

theorem slotInv_user (st : InputState) {st' : InputState} (m : ChatMsg)
    (hu : roleIsUserLike m.role = true)
    (hmsgs : st'.msgs = flushed st ++ [m]) (hr : st'.pendingReasoning = []) :
    SlotInv .fresh st' (seen ++ msgEvents false m) := by
  obtain ⟨e, he, hl, -⟩ := msgEvents_userLike (p := false) hu
  refine ⟨?_, hr, ?_⟩
  · rw [he, lastUserLike_append]
    simpa [lastUserLike] using hl
  · rw [hmsgs, pendingAfter_concat, nextPending, hu, not_assistant_of_userLike hu]
    simp

/-- A message without events behind a slot. -/
theorem slotInv_other {role : Bytes} (content : Bytes) (hu : roleIsUserLike role = false)
    (ha : roleIsAssistant role = false) (h : SlotInv slot st seen) :
    SlotInv slot.behindOther (stepItem st (.message role content)) seen := by
  rw [stepItem_plain st content ha]
  have hlast : ∀ ms, attachable (ms ++ [plainMsg role content]) = false := by
    intro ms
    simp [attachable_concat, plainMsg, ha]
  have hpend : ∀ ms, pendingAfter false (ms ++ [plainMsg role content]) =
      pendingAfter false ms := by
    intro ms
    simp [pendingAfter_concat, nextPending, plainMsg, ha, hu]
  cases slot with
  | used => exact h
  | fresh =>
    refine ⟨h.1, rfl, ?_⟩
    simpa only [hpend, flushed_of_nil h.2.1] using h.2.2
  | bare =>
    refine ⟨h.1, rfl, ?_⟩
    simp [placeable, hlast, hpend, flushed_of_nil h.2.1, h.2.2.pending]
  | spent =>
    have hp : pendingAfter false st.msgs = false := (Bool.or_eq_false_iff.mp h.2.2).1
    refine ⟨h.1, rfl, ?_⟩
    simp [placeable, hlast, hpend, flushed_of_nil h.2.1, hp]

theorem slotInv_emptyAnswer {role : Bytes} (ha : roleIsAssistant role = true)
    (h : SlotInv slot st seen) :
    SlotInv slot.behindEmptyAnswer (stepItem st (.message role [])) seen := by
  rw [stepItem_answer st [] ha]
  have hspent : ∀ (ms : List ChatMsg) (r : Bytes), pendingAfter false ms = false →
      placeable (ms ++ [{ plainMsg role [] with reasoning := r }]) = false := by
    intro ms r hp
    have ha' : roleIsAssistant ({ plainMsg role [] with reasoning := r } : ChatMsg).role = true :=
      ha
    rw [placeable, pendingAfter_concat, nextPending_assistant ha', attachable_concat, hp]
    simp
  cases slot with
  | used => exact h
  | fresh =>
    refine ⟨h.1, rfl, st.msgs, _, rfl, ha, ?_, rfl, rfl, h.2.2⟩
    exact h.2.1
  | bare => exact ⟨h.1, rfl, hspent _ _ h.2.2.pending⟩
  | spent => exact ⟨h.1, rfl, hspent _ _ (Bool.or_eq_false_iff.mp h.2.2).1⟩

theorem slotInv_step (it : Item) (h : SlotInv slot st seen) :
    SlotInv (slot.next it) (stepItem st it) (seen ++ it.events) := by
  cases it with
  | message role content =>
    rw [Slot.next, Item.events]
    cases hu : roleIsUserLike role with
    | true =>
      rw [if_pos rfl]
      have ha := not_assistant_of_userLike hu
      exact slotInv_user st (plainMsg role content) hu (by rw [stepItem_plain st content ha])
        (by rw [stepItem_plain st content ha])
    | false =>
      rw [if_neg Bool.false_ne_true]
      cases ha : roleIsAssistant role with
      | false =>
        rw [if_neg Bool.false_ne_true, msgEvents_other (m := plainMsg role content) hu ha,
          List.append_nil]
        exact slotInv_other content hu ha h
      | true =>
        rw [if_pos rfl, msgEvents_assistant (m := plainMsg role content) ha]
        by_cases hc : content = []
        · subst hc
          have he : (if false = true then thoughtEvents (plainMsg role []).reasoning else []) ++
              (answerEvents (plainMsg role []).content ++
                (plainMsg role []).calls.v.map Event.call) = [] := rfl
          rw [if_pos rfl, he, List.append_nil]
          exact slotInv_emptyAnswer ha h
        · rw [if_neg hc]
          simp [SlotInv, plainMsg, answerEvents, hc, lastUserLike, Event.isUserLike]
  | call tc => simp [Slot.next, SlotInv, Item.events, lastUserLike, Event.isUserLike]
  | output content loaded =>
    refine slotInv_user st (plainMsg (lit "tool") content) rfl ?_ ?_
    · rw [stepItem_output]
    · rw [stepItem_output]
  | reasoning summary content =>
    rw [Slot.next, Item.events]
    by_cases ht : joinText (lit "\n") summary content = []
    · rw [if_pos ht, stepItem_reasoning, ht]
      simp only [thoughtEvents, ↓reduceIte, List.append_nil]
      cases slot with
      | used => exact h
      | fresh => exact ⟨h.1, rfl, by simpa only [flushed_of_nil h.2.1] using h.2.2⟩
      | bare => exact ⟨h.1, rfl, by simpa only [flushed_of_nil h.2.1] using h.2.2⟩
      | spent => exact ⟨h.1, rfl, by simpa only [flushed_of_nil h.2.1] using h.2.2⟩
    · rw [if_neg ht]
      simp [SlotInv, thoughtEvents, ht, lastUserLike, Event.isUserLike]
  | bookkeeping =>
    rw [Slot.next, Item.events, List.append_nil, stepItem_bookkeeping]
    exact h

end Slots

section Kept
variable {slot : Slot} {st : InputState} {seen : List Event} {its : List Item}

/-- The messages show the events so far, and pending reasoning will still be rendered. -/
def Shows (st : InputState) (seen : List Event) (its : List Item) : Prop :=
  histEvents false st.msgs ++ thoughtEvents st.pendingReasoning = seen ∧
    (st.pendingReasoning ≠ [] →
      pendingAfter false st.msgs = true ∨ (BareLast st.msgs ∧ callNext its = true))

theorem histEvents_flushed_of_open
    (h : st.pendingReasoning ≠ [] → pendingAfter false st.msgs = true) :
    histEvents false (flushed st) =
      histEvents false st.msgs ++ thoughtEvents st.pendingReasoning := by
  rw [histEvents_flushed]
  by_cases hr : st.pendingReasoning = []
  · simp [hr, thoughtEvents]
  · rw [if_pos (h hr)]

theorem Shows.open (h : Shows st seen its) (hc : callNext its = false) :
    st.pendingReasoning ≠ [] → pendingAfter false st.msgs = true := by
  intro hr
  rcases h.2 hr with hp | hb
  · exact hp
  · simp [hc] at hb

theorem shows_call (tc : ToolCall) (h : Shows st seen (.call tc :: its)) :
    Shows (stepItem st (.call tc)) (seen ++ [.call tc]) its := by
  have hstep := stepItem_call st tc
  generalize stepItem st (.call tc) = st' at hstep ⊢
  have hcalls : ∀ (p : Bool) (m : ChatMsg), roleIsAssistant m.role = true →
      msgEvents p (pushCall m tc) = msgEvents p m ++ [.call tc] := by
    intro p m ha
    have ha' : roleIsAssistant (pushCall m tc).role = true := ha
    rw [msgEvents_assistant ha, msgEvents_assistant ha']
    simp [pushCall]
  rw [← h.1]
  cases hstep with
  | attached pre m hmsgs ha hr hm =>
    refine ⟨?_, fun hr' => absurd rfl hr'⟩
    have hnot : pendingAfter false st.msgs = false := by
      rw [hmsgs, pendingAfter_concat, nextPending_assistant ha]
    rcases h.2 hr with hp | ⟨⟨pre', m', hmsgs', -, -, hcont, hcl, hpre⟩, -⟩
    · simp [hnot] at hp
    · obtain ⟨rfl, hmm⟩ := List.append_inj' (hmsgs.symm.trans hmsgs') rfl
      obtain rfl : m = m' := by simpa using hmm
      have ha' : roleIsAssistant ({ m with reasoning := st.pendingReasoning } : ChatMsg).role =
        true := ha
      rw [hmsgs, histEvents_concat, histEvents_concat, hcalls _ _ ha', msgEvents_assistant ha',
        msgEvents_assistant ha, hpre]
      simp [hm, hcont, hcl, thoughtEvents, answerEvents, hr]
  | joined pre m hmsgs ha hr =>
    have hnil : st.pendingReasoning = [] := by
      by_contra hne
      rcases h.2 hne with hp | ⟨⟨pre', m', hmsgs', -, hreas, -⟩, -⟩
      · simp [hmsgs, pendingAfter_concat, nextPending_assistant ha] at hp
      · have hmm : m = m' := by simpa using congrArg List.getLast? (hmsgs.symm.trans hmsgs')
        exact hr.elim hne fun h' => h' (hmm ▸ hreas)
    refine ⟨?_, fun hr' => absurd hnil hr'⟩
    simp only [hmsgs, histEvents_concat, hcalls _ _ ha, hnil]
    simp [thoughtEvents]
  | separate hlast =>
    refine ⟨?_, fun hr' => absurd rfl hr'⟩
    have hopen : st.pendingReasoning ≠ [] → pendingAfter false st.msgs = true := by
      intro hr
      rcases h.2 hr with hp | ⟨⟨pre, m, hmsgs, ha, -⟩, -⟩
      · exact hp
      · simp [hlast pre m hmsgs] at ha
    have ha : roleIsAssistant (flushMsg st.pendingReasoning).role = true := rfl
    simp only [histEvents_concat, hcalls _ _ ha, msgEvents_assistant ha]
    by_cases hr : st.pendingReasoning = []
    · simp [hr, flushMsg, thoughtEvents, answerEvents]
    · simp [hopen hr, flushMsg, answerEvents]
      rfl

theorem shows_step (it : Item) (hs : SlotInv slot st seen) (h : Shows st seen (it :: its))
    (hp : it.events.any Event.isThought = true →
      slot = .fresh ∨ (slot = .bare ∧ callNext its = true)) :
    Shows (stepItem st it) (seen ++ it.events) its := by
  cases it with
  | message role content =>
    have hopen := h.open rfl
    cases ha : roleIsAssistant role with
    | false =>
      rw [stepItem_plain st content ha]
      refine ⟨?_, fun hr => absurd rfl hr⟩
      simp only [histEvents_concat, histEvents_flushed_of_open hopen, h.1, msgEvents_plain,
        Item.events]
      simp [thoughtEvents]
    | true =>
      rw [stepItem_answer st content ha]
      refine ⟨?_, fun hr => absurd rfl hr⟩
      have ha' : roleIsAssistant
        ({ plainMsg role content with reasoning := st.pendingReasoning } : ChatMsg).role = true :=
        ha
      rw [← h.1, Item.events, histEvents_concat, msgEvents_assistant ha',
        msgEvents_assistant (m := plainMsg role content) ha]
      by_cases hr : st.pendingReasoning = []
      · simp [hr, thoughtEvents, plainMsg]
      · simp [hopen hr, thoughtEvents, plainMsg]
  | call tc => exact shows_call tc h
  | output content loaded =>
    rw [stepItem_output]
    refine ⟨?_, fun hr => absurd rfl hr⟩
    simp only [histEvents_concat, histEvents_flushed_of_open (h.open rfl), h.1, msgEvents_tool,
      Item.events]
    simp [thoughtEvents]
  | reasoning summary content =>
    rw [stepItem_reasoning]
    refine ⟨by rw [histEvents_flushed_of_open (h.open rfl), h.1, Item.events], fun ht => ?_⟩
    have hthought : (Item.reasoning summary content).events.any Event.isThought = true := by
      have ht' : joinText (lit "\n") summary content ≠ [] := ht
      simp [Item.events, thoughtEvents, ht', Event.isThought]
    rcases hp hthought with rfl | ⟨rfl, hc⟩
    · exact Or.inl (by simpa only [flushed_of_nil hs.2.1] using hs.2.2)
    · exact Or.inr ⟨by simpa only [flushed_of_nil hs.2.1] using hs.2.2, hc⟩
  | bookkeeping =>
    rw [stepItem_bookkeeping, Item.events, List.append_nil]
    exact h

/-- While every thought is in its place the messages show the items read. -/
theorem shows_run {xs : List Item} (hs : SlotInv slot st seen) (h : Shows st seen (xs ++ its))
    (hp : thoughtsPlaced slot (xs ++ its) = true) :
    Shows (xs.foldl stepItem st) (seen ++ xs.flatMap Item.events) its := by
  induction xs generalizing slot st seen with
  | nil => simpa using h
  | cons it xs ih =>
    rw [List.cons_append, thoughtsPlaced, Bool.and_eq_true] at hp
    have hplace : it.events.any Event.isThought = true →
        slot = .fresh ∨ (slot = .bare ∧ callNext (xs ++ its) = true) := by
      intro ht
      have h' := hp.1
      simpa [ht, or_assoc] using h'
    have hrun := ih (slotInv_step it hs) (shows_step it hs h hplace) hp.2
    simpa using hrun

theorem finished_of_placed (hs : SlotInv slot st seen) (h : Shows st seen its)
    (hp : thoughtsPlaced slot its = true) :
    histEvents false (flushed (its.foldl stepItem st)) = seen ++ its.flatMap Item.events := by
  rw [← List.append_nil its] at h hp
  have hrun := shows_run hs h hp
  rw [histEvents_flushed_of_open (hrun.open rfl), hrun.1]

end Kept

section Lost
variable {slot : Slot} {st : InputState} {seen : List Event} {its : List Item}

theorem thoughtCount_flushed_closed (hp : pendingAfter false st.msgs = false) :
    thoughtCount (histEvents false (flushed st)) = thoughtCount (histEvents false st.msgs) := by
  rw [histEvents_flushed, hp]
  simp

/-- Reasoning behind an empty answer is lost unless a call comes next. -/
theorem thoughtCount_bare_le (hb : BareLast st.msgs) (hr : st.pendingReasoning ≠ [])
    (hc : callNext its = false) :
    thoughtCount (histEvents false (flushed (its.foldl stepItem st))) ≤
      thoughtCount (histEvents false st.msgs) + thoughtCount (its.flatMap Item.events) := by
  have hflush := thoughtCount_flushed_closed hb.pending
  induction its with
  | nil => simp [hflush]
  | cons it its ih =>
    have hfinish := thoughtCount_finish_le its (stepItem st it)
    suffices hstep : it = .bookkeeping ∨ keptThoughts (stepItem st it) ≤
        thoughtCount (histEvents false st.msgs) + thoughtCount it.events by
      rcases hstep with rfl | hstep
      · rw [List.foldl_cons, stepItem_bookkeeping]
        exact ih hc
      · rw [List.foldl_cons, List.flatMap_cons, thoughtCount_append]
        omega
    cases it with
    | message role content =>
      right
      cases ha : roleIsAssistant role with
      | false =>
        rw [stepItem_plain st content ha]
        simp [keptThoughts, histEvents_concat, thoughtCount_append, thoughtCount_plain, hflush]
      | true =>
        have ha' : roleIsAssistant
          ({ plainMsg role content with reasoning := st.pendingReasoning } : ChatMsg).role = true :=
          ha
        rw [stepItem_answer st content ha, keptThoughts]
        simp only [histEvents_concat, thoughtCount_append, thoughtCount_assistant ha', hb.pending]
        simp
    | call tc => simp [callNext] at hc
    | output content loaded =>
      right
      rw [stepItem_output]
      simp [keptThoughts, histEvents_concat, thoughtCount_append, thoughtCount_plain, hflush]
    | reasoning summary content =>
      right
      have hplace : placeable (flushed st) = false := by
        have hne : (flushMsg st.pendingReasoning).reasoning ≠ [] := hr
        rw [placeable, pendingAfter_flushed, hb.pending, Bool.and_false, Bool.false_or, flushed,
          if_neg hr, attachable_concat]
        simp [hne]
      rw [stepItem_reasoning, keptThoughts]
      simp [hplace, hflush]
    | bookkeeping => exact Or.inl rfl

theorem Item.eq_reasoning {it : Item} (h : it.events.any Event.isThought = true) :
    ∃ summary content, it = .reasoning summary content ∧
      it.events = [.thought (joinText (lit "\n") summary content)] := by
  cases it with
  | message role content =>
    have hzero := thoughtCount_plain (p := false) role content
    rw [thoughtCount, List.countP_eq_zero] at hzero
    obtain ⟨e, he, ht⟩ := List.any_eq_true.mp h
    exact absurd ht (hzero e he)
  | call tc => simp [Item.events, Event.isThought] at h
  | output content loaded => simp [Item.events, Event.isThought] at h
  | bookkeeping => simp [Item.events] at h
  | reasoning summary content =>
    refine ⟨summary, content, rfl, ?_⟩
    rw [Item.events, thoughtEvents] at h ⊢
    split_ifs at h ⊢ with ht
    · simp at h
    · rfl

/-- Behind anything but a user or tool event no thought is rendered. -/
theorem ne_of_used {r : Bytes} {rest : List Event} {ms : List ChatMsg}
    (h : lastUserLike false seen = false) :
    histEvents false ms ≠ seen ++ .thought r :: rest := by
  intro he
  have hb : behindUser false (histEvents false ms) = true := behindUser_histEvents nofun
  rw [he, behindUser_append, h, behindUser] at hb
  simp [Event.isThought] at hb

/-- A thought that cannot be placed is missing in the end. -/
theorem thoughtCount_spent_le (its : List Item) (summary content : Bytes)
    (hr : st.pendingReasoning = []) (hp : placeable st.msgs = false) :
    thoughtCount (histEvents false
        (flushed (its.foldl stepItem (stepItem st (.reasoning summary content))))) ≤
      thoughtCount (histEvents false st.msgs) + thoughtCount (its.flatMap Item.events) := by
  refine (thoughtCount_finish_le its _).trans (Nat.add_le_add_right ?_ _)
  rw [stepItem_reasoning, keptThoughts, flushed_of_nil hr]
  simp [hp]

/-- A thought out of place is not rendered in its place. -/
theorem finished_ne_of_misplaced (hs : SlotInv slot st seen)
    (hk : keptThoughts st ≤ thoughtCount seen) (hp : thoughtsPlaced slot its = false) :
    histEvents false (flushed (its.foldl stepItem st)) ≠ seen ++ its.flatMap Item.events := by
  induction its generalizing slot st seen with
  | nil => simp [thoughtsPlaced] at hp
  | cons it its ih =>
    rw [List.foldl_cons]
    cases hrest : thoughtsPlaced (slot.next it) its with
    | false =>
      have hk' : keptThoughts (stepItem st it) ≤ thoughtCount (seen ++ it.events) := by
        have := keptThoughts_step_le st it
        rw [thoughtCount_append]
        omega
      simpa using ih (slotInv_step it hs) hk' hrest
    | true =>
      rw [thoughtsPlaced, hrest, Bool.and_true] at hp
      simp only [Bool.or_eq_false_iff, Bool.not_eq_false'] at hp
      obtain ⟨⟨ht, hfresh⟩, hbare⟩ := hp
      obtain ⟨summary, content, rfl, hevents⟩ := Item.eq_reasoning ht
      have hone :
          thoughtCount (seen ++ List.flatMap Item.events (.reasoning summary content :: its)) =
          thoughtCount seen + 1 + thoughtCount (its.flatMap Item.events) := by
        rw [List.flatMap_cons, hevents, thoughtCount_append, thoughtCount_append, Nat.add_assoc]
        rfl
      have hle : thoughtCount (histEvents false st.msgs) ≤ keptThoughts st := Nat.le_add_right _ _
      intro he
      have hcount := congrArg thoughtCount he
      rw [hone] at hcount
      cases slot with
      | fresh => simp at hfresh
      | used =>
        rw [List.flatMap_cons, hevents] at he
        exact ne_of_used hs he
      | spent =>
        have := thoughtCount_spent_le its summary content hs.2.1 hs.2.2
        omega
      | bare =>
        have hc : callNext its = false := by simpa using hbare
        have hne : joinText (lit "\n") summary content ≠ [] := by
          intro hnil
          simp [Item.events, hnil, thoughtEvents] at hevents
        have hmsgs : (stepItem st (.reasoning summary content)).msgs = st.msgs := by
          rw [stepItem_reasoning, flushed_of_nil hs.2.1]
        have hbare' : BareLast (stepItem st (.reasoning summary content)).msgs := by
          rw [hmsgs]
          exact hs.2.2
        have := thoughtCount_bare_le hbare' (by rwa [stepItem_reasoning]) hc
        rw [hmsgs] at this
        omega

end Lost

theorem finishInput_msgs (st : InputState) : (finishInput st).msgs = flushed st := by
  by_cases hr : st.pendingReasoning = [] <;> simp [finishInput, flushed, hr]

theorem slotInv_start : SlotInv .used startInput [] := rfl

theorem shows_start (its : List Item) : Shows startInput [] its :=
  ⟨rfl, fun hr => absurd rfl hr⟩

/-- The messages of an input show all its events in order exactly if its reasoning is
placed. -/
theorem finished_events_iff (its : List Item) :
    histEvents false (finishInput (its.foldl stepItem startInput)).msgs =
        its.flatMap Item.events ↔
      thoughtsPlaced .used its = true := by
  rw [finishInput_msgs]
  constructor
  · intro h
    by_contra hp
    exact finished_ne_of_misplaced slotInv_start (Nat.zero_le _) (Bool.eq_false_iff.mpr hp) h
  · intro hp
    simpa using finished_of_placed slotInv_start (shows_start its) hp

end Ds4.Chat
