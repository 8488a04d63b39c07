import Ds4.Appliance.SessionTable
import Ds4.Json.Print
import Ds4.Parts.Buffer
import Mathlib.Algebra.Order.Ring.Star

/-! The documents that the appliance prints into buffers of fixed sizes: the listing of its slots
and the replies to generation requests. -/
namespace Ds4.Appliance
open Json Parts

/-- The keys and values of a format. -/
def printed (fields : List (String × Printed)) : List (Bytes × Bytes) :=
  fields.map fun f => (lit f.1, f.2.text)

section Listing
variable (t : SessionTable)

def SessionTable.used : ℕ := t.slots.countP fun slot => slot.occupied

end Listing

section Generation

variable (ctx : ReplyContext) (req : HttpParsedRequest) (a : SessionAssignment)
  (sessions : SessionTable) (result : BatchResult)

def requestPromptTokens : ℕ :=
  if req.promptTokenIds = [] then 1 else req.promptTokenIds.length

end Generation

section Printing
variable {fields : List (String × Printed)}

end Printing

section Keys
variable (t : SessionTable) (id : ℕ) (slot : SessionSlot) (ctx : ReplyContext)
  (req : HttpParsedRequest) (a : SessionAssignment) (result : BatchResult)

end Keys

section Complete
variable (t : SessionTable)

end Complete

section Reply
variable (ctx : ReplyContext) (req : HttpParsedRequest) (a : SessionAssignment)
  (sessions : SessionTable) (result : BatchResult)

end Reply

end Ds4.Appliance
