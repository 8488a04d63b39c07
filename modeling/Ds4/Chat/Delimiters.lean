import Ds4.Chat.Render
import Ds4.Dsml.Escape

/-! The closing tags of what a prompt quotes: a tool's output and the arguments of a call. -/
namespace Ds4.Chat
open Ds4.Dsml Ds4.Search

def toolResultEnd : Bytes := lit "</tool_result>"

/-- A text whose closing tag is found behind it and nowhere else. -/
def ClosedOnce (tag text : Bytes) : Prop :=
  ∀ x y, text ++ tag = x ++ (tag ++ y) → x = text ∧ y = []

theorem closedOnce_guarded {tag rep : Bytes} (h : GuardOk tag rep) (s : Bytes) :
    ClosedOnce tag (guarded tag rep s) :=
  fun _ _ heq => guarded_closed h heq

theorem resultGuard_ok : GuardOk toolResultEnd (lit "&lt;") := by
  constructor <;> decide +kernel

/-- No C string closes the block it is written in: behind what an escaper writes for it, the closing
tag is the only one. -/
theorem payload_closed (s : Bytes) :
    ClosedOnce toolResultEnd (toolResultText (cstr s)) ∧
      ClosedOnce dsmlLong.paramEnd (dsmlParameterText (cstr s)) ∧
      ClosedOnce dsmlLong.paramEnd (dsmlJsonLiteral (cstr s)) :=
  ⟨closedOnce_guarded resultGuard_ok _, closedOnce_guarded (paramGuard_ok _ (by simp)) _,
    closedOnce_guarded (paramGuard_ok _ (by simp)) _⟩

end Ds4.Chat
