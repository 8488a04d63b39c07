import Ds4.Bytes.Apart
import Ds4.Chat.Render
import Mathlib.Algebra.Ring.Int.Defs

/-! How the render loops run: what a turn adds, and where two renderings part. -/
namespace Ds4.Chat
open Ds4.Dsml Ds4.Search

section Roles
variable {role : Bytes}

theorem userLike_of_tool (h : roleIsTool role = true) : roleIsUserLike role = true := by
  simp [roleIsUserLike, h]

theorem userLike_of_user (h : role = lit "user") : roleIsUserLike role = true := by
  simp [roleIsUserLike, h]

theorem not_assistant_of_userLike (h : roleIsUserLike role = true) :
    roleIsAssistant role = false := by
  simp only [roleIsUserLike, roleIsTool, Bool.or_eq_true, beq_iff_eq] at h
  rcases h with rfl | rfl | rfl <;> decide

theorem not_userLike_of_system (h : roleIsSystem role = true) : roleIsUserLike role = false := by
  simp only [roleIsSystem, Bool.or_eq_true, beq_iff_eq] at h
  rcases h with rfl | rfl <;> decide

theorem not_assistant_of_system (h : roleIsSystem role = true) :
    roleIsAssistant role = false := by
  simp only [roleIsSystem, Bool.or_eq_true, beq_iff_eq] at h
  rcases h with rfl | rfl <;> decide

theorem not_system_of_assistant (h : roleIsAssistant role = true) : roleIsSystem role = false := by
  cases hs : roleIsSystem role with
  | false => rfl
  | true => simp [not_assistant_of_system hs] at h

theorem not_system_of_userLike (h : roleIsUserLike role = true) : roleIsSystem role = false := by
  cases hs : roleIsSystem role with
  | false => rfl
  | true => simp [not_userLike_of_system hs] at h

theorem not_userLike_of_assistant (h : roleIsAssistant role = true) :
    roleIsUserLike role = false := by
  cases hu : roleIsUserLike role with
  | false => rfl
  | true => simp [not_assistant_of_userLike hu] at h

end Roles

/-- Whether a user turn waits for its answer behind message `m`. -/
def nextPending (pending : Bool) (m : ChatMsg) : Bool :=
  !roleIsAssistant m.role && (pending || roleIsUserLike m.role)

def pendingAfter (pending : Bool) (ms : List ChatMsg) : Bool := ms.foldl nextPending pending

/-- The positions of the assistant turns that answer a user turn. Only these carry a
thought section. -/
def answers : Bool → ℕ → List ChatMsg → List ℕ
  | _, _, [] => []
  | pending, i, m :: ms =>
      (if roleIsAssistant m.role && pending then [i] else []) ++
        answers (nextPending pending m) (i + 1) ms

theorem answers_append (p : Bool) (i : ℕ) (xs ys : List ChatMsg) :
    answers p i (xs ++ ys) = answers p i xs ++ answers (pendingAfter p xs) (i + xs.length) ys := by
  induction xs generalizing p i with
  | nil => rfl
  | cons m xs ih =>
    simp only [List.cons_append, answers, ih, List.append_assoc, pendingAfter, List.foldl_cons,
      List.length_cons]
    rw [show i + 1 + xs.length = i + (xs.length + 1) by omega]

theorem answers_lt {p : Bool} {i j : ℕ} {ms : List ChatMsg} (h : j ∈ answers p i ms) :
    i ≤ j ∧ j < i + ms.length := by
  induction ms generalizing p i with
  | nil => simp [answers] at h
  | cons m ms ih =>
    simp only [answers, List.mem_append] at h
    rcases h with h | h
    · have : j = i := by
        split_ifs at h
        · simpa using h
        · simp at h
      subst this
      simp
    · have := ih h
      simp only [List.length_cons]
      omega

section Loop
variable {think : Bool}

/-- The state with text put in front of its buffer. -/
def RenderState.prepend (a : Bytes) (s : RenderState) : RenderState := { s with out := a ++ s.out }

theorem RenderState.prepend_inj {a b : Bytes} {s : RenderState} :
    s.prepend a = s.prepend b ↔ a = b := by
  simp [RenderState.prepend]

theorem renderMsg_prepend (shown : Bool) (a : Bytes) (s : RenderState) (m : ChatMsg) :
    renderMsg think shown (s.prepend a) m = (renderMsg think shown s m).prepend a := by
  unfold renderMsg RenderState.prepend
  split_ifs <;> simp

theorem renderMsgs_prepend (shown : ℕ → Bool) (a : Bytes) (i : ℕ) (ms : List ChatMsg)
    (s : RenderState) :
    renderMsgs think shown i ms (s.prepend a) = (renderMsgs think shown i ms s).prepend a := by
  induction ms generalizing i s with
  | nil => rfl
  | cons m ms ih => rw [renderMsgs, renderMsgs, renderMsg_prepend, ih]

theorem renderEnd_prepend (a : Bytes) (s : RenderState) :
    renderEnd think (s.prepend a) = a ++ renderEnd think s := by
  rw [renderEnd, renderEnd, RenderState.prepend, List.append_assoc]

theorem renderMsgs_append (shown : ℕ → Bool) (i : ℕ) (xs ys : List ChatMsg) (s : RenderState) :
    renderMsgs think shown i (xs ++ ys) s =
      renderMsgs think shown (i + xs.length) ys (renderMsgs think shown i xs s) := by
  induction xs generalizing i s with
  | nil => rfl
  | cons m xs ih =>
    rw [List.cons_append, renderMsgs, renderMsgs, ih]
    simp only [List.length_cons]
    rw [show i + 1 + xs.length = i + (xs.length + 1) by omega]

@[simp]
theorem renderMsg_pending (shown : Bool) (s : RenderState) (m : ChatMsg) :
    (renderMsg think shown s m).pendingAssistant = nextPending s.pendingAssistant m := by
  by_cases hs : roleIsSystem m.role
  · simp [renderMsg, nextPending, hs, not_assistant_of_system hs, not_userLike_of_system hs]
  by_cases hu : m.role = lit "user"
  · have hl := userLike_of_user hu
    rw [renderMsg, if_neg hs, if_pos hu]
    simp [nextPending, hl, not_assistant_of_userLike hl]
  by_cases ht : roleIsTool m.role
  · have hl := userLike_of_tool ht
    simp [renderMsg, nextPending, hs, hu, ht, hl, not_assistant_of_userLike hl]
  have hl : roleIsUserLike m.role = false := by simpa [roleIsUserLike, hu] using ht
  by_cases ha : roleIsAssistant m.role
  · simp [renderMsg, nextPending, hs, hu, ht, ha]
  · simp [renderMsg, nextPending, hs, hu, ht, ha, hl]

@[simp]
theorem renderMsgs_pending (shown : ℕ → Bool) (i : ℕ) (ms : List ChatMsg) (s : RenderState) :
    (renderMsgs think shown i ms s).pendingAssistant = pendingAfter s.pendingAssistant ms := by
  induction ms generalizing i s with
  | nil => rfl
  | cons m ms ih =>
    rw [renderMsgs, ih, renderMsg_pending]
    rfl

theorem renderMsg_out_grows (think : Bool) (shown : Bool) (s : RenderState) (m : ChatMsg) :
    s.out <+: (renderMsg think shown s m).out := by
  unfold renderMsg
  split_ifs <;> simp

theorem renderMsgs_out_grows (think : Bool) (shown : ℕ → Bool) (i : ℕ) (ms : List ChatMsg)
    (s : RenderState) :
    s.out <+: (renderMsgs think shown i ms s).out := by
  induction ms generalizing i s with
  | nil => exact List.prefix_rfl
  | cons m ms ih => exact (renderMsg_out_grows _ _ s m).trans (ih (i + 1) _)

/-- Renderings that have parted stay apart, whatever follows in either. -/
theorem renderMsgs_apart_of_apart {s s' : RenderState} (h : Apart s.out s'.out)
    (sh sh' : ℕ → Bool) (i i' : ℕ) (ms ms' : List ChatMsg) :
    Apart (renderMsgs think sh i ms s).out (renderMsgs think sh' i' ms' s').out := by
  obtain ⟨x, hx⟩ := renderMsgs_out_grows think sh i ms s
  obtain ⟨y, hy⟩ := renderMsgs_out_grows think sh' i' ms' s'
  rw [← hx, ← hy]
  exact h.append x y

theorem renderMsg_assistant {shown : Bool} (s : RenderState) {m : ChatMsg}
    (ha : roleIsAssistant m.role = true) :
    renderMsg think shown s m = ⟨s.out ++ ((if s.pendingAssistant then
      assistantMark ++ thinkText think shown m.reasoning else []) ++ m.content ++
        dsmlToolCallsText m.calls ++ endOfSentence), false, false⟩ := by
  have hu := not_userLike_of_assistant ha
  have huser : ¬ m.role = lit "user" := fun h => by simp [userLike_of_user h] at hu
  have htool : ¬ roleIsTool m.role = true := fun h => by simp [userLike_of_tool h] at hu
  rw [renderMsg, not_system_of_assistant ha, if_neg Bool.false_ne_true, if_neg huser, if_neg htool,
    if_pos ha]

/-- The thoughts are read at the answers only. -/
theorem renderMsg_congr {b b' : Bool} {s : RenderState} {m : ChatMsg}
    (h : think = true → roleIsAssistant m.role = true → s.pendingAssistant = true → b = b') :
    renderMsg think b s m = renderMsg think b' s m := by
  unfold renderMsg
  by_cases ha : roleIsAssistant m.role
  · cases hp : s.pendingAssistant with
    | false => rfl
    | true =>
      cases think with
      | false => simp [thinkText]
      | true => rw [h rfl ha hp]
  · simp [ha]

theorem renderMsgs_congr {sh sh' : ℕ → Bool} {i : ℕ} {ms : List ChatMsg} {s : RenderState}
    (h : think = true → ∀ j ∈ answers s.pendingAssistant i ms, sh j = sh' j) :
    renderMsgs think sh i ms s = renderMsgs think sh' i ms s := by
  induction ms generalizing i s with
  | nil => rfl
  | cons m ms ih =>
    have hstep : renderMsg think (sh i) s m = renderMsg think (sh' i) s m := by
      apply renderMsg_congr
      intro ht ha hp
      exact h ht i (by simp [answers, ha, hp])
    rw [renderMsgs, renderMsgs, hstep]
    apply ih
    intro ht j hj
    refine h ht j ?_
    rw [renderMsg_pending] at hj
    exact List.mem_append_right _ hj

end Loop

section Parting

/-- A shown and a hidden thought part at once. -/
theorem thinkText_apart (r r' x y : Bytes) :
    Apart (thinkOpen ++ r ++ x) (thinkClose ++ r' ++ y) := by
  have h : Apart thinkOpen thinkClose := by decide
  simpa using h.append (r ++ x) (r' ++ y)

theorem renderMsg_apart {b b' : Bool} {s : RenderState} {m : ChatMsg}
    (ha : roleIsAssistant m.role = true) (hp : s.pendingAssistant = true) (hb : b ≠ b') :
    Apart (renderMsg true b s m).out (renderMsg true b' s m).out := by
  have key : ∀ r : Bytes, Apart (thinkOpen ++ r ++ thinkClose) thinkClose := by
    intro r
    simpa using thinkText_apart r [] thinkClose []
  rw [renderMsg_assistant s ha, renderMsg_assistant s ha, hp]
  simp only [↓reduceIte]
  refine Apart.prepend ?_ s.out
  simp only [List.append_assoc]
  refine Apart.prepend ?_ assistantMark
  cases b with
  | false =>
    obtain rfl : b' = true := by simpa using hb.symm
    exact (key m.reasoning).symm.append _ _
  | true =>
    obtain rfl : b' = false := by simpa using hb.symm
    exact (key m.reasoning).append _ _

/-- Two renderings part as soon as one of them keeps the thoughts of an answer that the
other leaves out. -/
theorem renderMsgs_apart {sh sh' : ℕ → Bool} {i : ℕ} {ms : List ChatMsg} {s : RenderState}
    (h : ∃ j ∈ answers s.pendingAssistant i ms, sh j ≠ sh' j) :
    Apart (renderMsgs true sh i ms s).out (renderMsgs true sh' i ms s).out := by
  induction ms generalizing i s with
  | nil =>
    obtain ⟨j, hj, -⟩ := h
    simp [answers] at hj
  | cons m ms ih =>
    rw [renderMsgs, renderMsgs]
    by_cases hi : (roleIsAssistant m.role = true ∧ s.pendingAssistant = true) ∧ sh i ≠ sh' i
    · exact renderMsgs_apart_of_apart (renderMsg_apart hi.1.1 hi.1.2 hi.2) _ _ _ _ _ _
    · have hstep : renderMsg true (sh i) s m = renderMsg true (sh' i) s m := by
        apply renderMsg_congr
        intro _ ha hp
        by_contra hne
        exact hi ⟨⟨ha, hp⟩, hne⟩
      rw [hstep]
      apply ih
      obtain ⟨j, hj, hne⟩ := h
      refine ⟨j, ?_, hne⟩
      rw [renderMsg_pending]
      simp only [answers, List.mem_append] at hj
      rcases hj with hj | hj
      · split_ifs at hj with hc
        · obtain rfl : j = i := by simpa using hj
          exact absurd ⟨by simpa using hc, hne⟩ hi
        · simp at hj
      · exact hj

theorem renderMsgs_eq_or_apart (think : Bool) (sh sh' : ℕ → Bool) (i : ℕ) (ms : List ChatMsg)
    (s : RenderState) :
    renderMsgs think sh i ms s = renderMsgs think sh' i ms s ∨
      Apart (renderMsgs think sh i ms s).out (renderMsgs think sh' i ms s).out := by
  by_cases h : think = true ∧ ∃ j ∈ answers s.pendingAssistant i ms, sh j ≠ sh' j
  · obtain ⟨rfl, hj⟩ := h
    exact Or.inr (renderMsgs_apart hj)
  · refine Or.inl (renderMsgs_congr fun ht j hj => ?_)
    by_contra hne
    exact h ⟨ht, j, hj, hne⟩

/-- Two renderings agree exactly where they keep the same thoughts. -/
theorem renderMsgs_eq_iff {think : Bool} {sh sh' : ℕ → Bool} {i : ℕ} {ms : List ChatMsg}
    {s : RenderState} :
    renderMsgs think sh i ms s = renderMsgs think sh' i ms s ↔
      (think = true → ∀ j ∈ answers s.pendingAssistant i ms, sh j = sh' j) := by
  refine ⟨?_, renderMsgs_congr⟩
  rintro h rfl j hj
  by_contra hne
  exact (renderMsgs_apart ⟨j, hj, hne⟩).ne (congrArg RenderState.out h)

end Parting

section LastUser

theorem lastUserLoop_lt_iff (i : ℕ) (last : ℤ) (ms : List ChatMsg) (hl : last < i) (k : ℕ) :
    lastUserLoop i last ms < k ↔
      last < k ∧ ∀ j m, ms[j]? = some m → roleIsUserLike m.role = true → i + j < k := by
  induction ms generalizing i last with
  | nil => simp [lastUserLoop]
  | cons m ms ih =>
    have hi : ((i : ℤ) + 1) = ((i + 1 : ℕ) : ℤ) := by push_cast; rfl
    rw [lastUserLoop, hi, ih (i + 1) _ (by split_ifs <;> omega)]
    constructor
    · rintro ⟨h1, h2⟩
      refine ⟨by split_ifs at h1 <;> omega, fun j m' hj hu => ?_⟩
      cases j with
      | zero =>
        obtain rfl : m = m' := by simpa using hj
        simp only [hu, ↓reduceIte] at h1
        omega
      | succ j =>
        have := h2 j m' (by simpa using hj) hu
        omega
    · rintro ⟨h1, h2⟩
      refine ⟨?_, fun j m' hj hu => ?_⟩
      · split_ifs with hu
        · have := h2 0 m rfl hu
          omega
        · exact h1
      · have := h2 (j + 1) m' (by simpa using hj) hu
        omega

/-- A position lies behind the last user-like message. -/
theorem lastUserIdx_lt_iff {msgs : List ChatMsg} {k : ℕ} :
    lastUserIdx msgs < k ↔
      ∀ j m, msgs[j]? = some m → roleIsUserLike m.role = true → j < k := by
  have h := lastUserLoop_lt_iff 0 (-1) msgs (by omega) k
  simp only [Nat.cast_zero, zero_add] at h
  rw [lastUserIdx, h]
  exact ⟨And.right, fun h => ⟨by omega, h⟩⟩

end LastUser

end Ds4.Chat
