import Ds4.Chat.Pieces
import Ds4.Chat.ResponsesInput

/-! What one input item does to the messages, read as events. -/
namespace Ds4.Chat
open Ds4.Dsml

/-- The events of an item in the order of the input. -/
def Item.events : Item → List Event
  | .message role content => msgEvents false (plainMsg role content)
  | .call tc => [.call tc]
  | .output content _ => [.output content]
  | .reasoning summary content => thoughtEvents (joinText (lit "\n") summary content)
  | .bookkeeping => []

/-- The messages with the pending reasoning written out. -/
def flushed (st : InputState) : List ChatMsg :=
  st.msgs ++ if st.pendingReasoning = [] then [] else [flushMsg st.pendingReasoning]

section Steps
variable (st : InputState)

theorem flushReasoning_eq (it : Item) (hc : it.consumesReasoning = false)
    (hb : it ≠ .bookkeeping) :
    flushReasoning st it = { st with msgs := flushed st, pendingReasoning := [] } := by
  rw [flushReasoning, flushed]
  by_cases hr : st.pendingReasoning = []
  · rw [if_neg (by simp [hr]), if_pos hr, List.append_nil, ← hr]
  · rw [if_pos ⟨hc, hb, hr⟩, if_neg hr]

theorem flushReasoning_of_consumes (it : Item) (hc : it.consumesReasoning = true) :
    flushReasoning st it = st := by
  rw [flushReasoning, if_neg (by simp [hc])]

theorem stepItem_plain {role : Bytes} (content : Bytes) (h : roleIsAssistant role = false) :
    stepItem st (.message role content) =
      { st with msgs := flushed st ++ [plainMsg role content], pendingReasoning := [] } := by
  rw [stepItem, flushReasoning_eq st (.message role content) h nofun, addMessage, h]
  rfl

theorem stepItem_answer {role : Bytes} (content : Bytes) (h : roleIsAssistant role = true) :
    stepItem st (.message role content) =
      { st with
        msgs := st.msgs ++ [{ plainMsg role content with reasoning := st.pendingReasoning }]
        pendingReasoning := [] } := by
  rw [stepItem, flushReasoning_of_consumes st (.message role content) h, addMessage, if_pos h]

theorem stepItem_output (content loaded : Bytes) :
    stepItem st (.output content loaded) =
      ⟨flushed st ++ [plainMsg (lit "tool") content], [],
        joinText (lit "\n") st.loadedToolSchemas loaded⟩ := by
  rw [stepItem, flushReasoning_eq st (.output content loaded) rfl nofun, addOutput]

theorem stepItem_reasoning (summary content : Bytes) :
    stepItem st (.reasoning summary content) =
      { st with
        msgs := flushed st
        pendingReasoning := joinText (lit "\n") summary content } := by
  have h : ∀ t : Bytes, joinText (lit "\n") [] t = t := by
    intro t
    by_cases ht : t = [] <;> simp [joinText, ht]
  rw [stepItem, flushReasoning_eq st (.reasoning summary content) rfl nofun, addReasoning]
  simp only [h]

theorem stepItem_bookkeeping : stepItem st .bookkeeping = st := by
  rw [stepItem, flushReasoning, if_neg (by simp)]

/-- A call joins the last message with or without the pending reasoning, or it gets a
message of its own. -/
inductive CallStep (st : InputState) (tc : ToolCall) : InputState → Prop where
  | attached (pre : List ChatMsg) (m : ChatMsg) (hmsgs : st.msgs = pre ++ [m])
      (ha : roleIsAssistant m.role = true) (hr : st.pendingReasoning ≠ [])
      (hm : m.reasoning = []) :
      CallStep st tc { st with
        msgs := pre ++ [pushCall { m with reasoning := st.pendingReasoning } tc]
        pendingReasoning := [] }
  | joined (pre : List ChatMsg) (m : ChatMsg) (hmsgs : st.msgs = pre ++ [m])
      (ha : roleIsAssistant m.role = true) (hr : st.pendingReasoning = [] ∨ m.reasoning ≠ []) :
      CallStep st tc { st with msgs := pre ++ [pushCall m tc] }
  | separate (hlast : ∀ pre m, st.msgs = pre ++ [m] → roleIsAssistant m.role = false) :
      CallStep st tc { st with
        msgs := st.msgs ++ [pushCall (flushMsg st.pendingReasoning) tc], pendingReasoning := [] }

theorem stepItem_call (tc : ToolCall) : CallStep st tc (stepItem st (.call tc)) := by
  rw [stepItem, flushReasoning_of_consumes st (.call tc) rfl, addCall]
  rcases List.eq_nil_or_concat st.msgs with hnil | ⟨pre, m, hmsgs⟩
  · simp only [hnil, List.getLast?_nil]
    have h : CallStep st tc _ := .separate fun pre m h => by simp [hnil] at h
    rwa [hnil] at h
  · rw [List.concat_eq_append] at hmsgs
    simp only [hmsgs, List.getLast?_concat, List.dropLast_concat]
    split_ifs with ha hr
    · exact .attached pre m hmsgs ha hr.1 hr.2
    · refine .joined pre m hmsgs ha ?_
      by_contra hc
      push Not at hc
      exact hr hc
    · have h : CallStep st tc _ := .separate fun pre' m' h' => by
        have hm : m = m' := by simpa using congrArg List.getLast? (hmsgs.symm.trans h')
        simpa [← hm] using ha
      rwa [hmsgs] at h

end Steps

end Ds4.Chat
