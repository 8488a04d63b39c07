import Ds4.Dsml.Members

/-! Rendering tool calls and parsing them back. -/
namespace Ds4.Dsml
open Ds4.Search Ds4.Json

/-- The members of an arguments text, with decoded strings. -/
def argumentsOf (s : Bytes) : Option (List (Bytes × Value Bytes)) :=
  (readObject s).map (mapMembers decode)

/-- A call whose arguments are one JSON object with distinct keys. -/
structure ObjectCall where
  call : ToolCall
  members : List Member
  reads : readObject call.arguments = some members
  name_clean : 0 ∉ call.name
  keys_clean : ∀ m ∈ members, 0 ∉ decode m.1
  keys_distinct : (members.map fun m => decode m.1).Nodup

def SameCall (tc tc' : ToolCall) : Prop :=
  tc'.name = tc.name ∧ argumentsOf tc'.arguments = argumentsOf tc.arguments

/-- The rendered text is parsed into the same calls in the same order. -/
def RoundTrips (calls : List ToolCall) : Prop :=
  ∃ m, parseGeneratedMessageEx (dsmlToolCallsText ⟨calls, none⟩) false = some m ∧
    List.Forall₂ SameCall calls m.calls.v

theorem roundTrips_iff_calls {calls : List ToolCall} (hne : calls ≠ []) :
    RoundTrips calls ↔ ∀ tc ∈ calls, SameCall tc (callRead tc) := by
  have hparse := parse_toolCallsText hne
  have hpairs : List.Forall₂ SameCall calls (calls.map callRead) ↔
      ∀ tc ∈ calls, SameCall tc (callRead tc) := by
    rw [List.forall₂_map_right_iff, List.forall₂_same]
  obtain ⟨m, hm, hv⟩ := Option.map_eq_some_iff.mp hparse
  rw [← hpairs, ← hv]
  constructor
  · rintro ⟨m', hm', hall⟩
    rw [hm] at hm'
    exact Option.some.inj hm' ▸ hall
  · exact fun hall => ⟨m, hm, hall⟩

theorem argumentsOf_members {t : Bytes} {l : List Member} (h : MembersText t l) :
    argumentsOf (123 :: (t ++ [125])) = some (mapMembers decode l) := by
  have hobj := @ObjectText.mk [] _ [] l (by simp [Ws]) (.obj h) (by simp [Ws])
  rw [List.nil_append, List.append_nil] at hobj
  rw [argumentsOf, readObject_iff.mpr hobj]
  rfl

theorem depthMembers_le_iff {l : List Member} {n : ℕ} :
    depthMembers l ≤ n ↔ ∀ m ∈ l, m.2.depth ≤ n := by
  induction l with
  | nil => simp [depthMembers]
  | cons m l ih =>
    obtain ⟨k, v⟩ := m
    simp [depthMembers, ih]

theorem readValue_open {n : ℕ} {s u : Bytes} (h : skipWs s = 34 :: u) :
    readValue (n + 1) (123 :: s) = (readMembers n s).map fun p => (.obj p.1, p.2) := by
  rw [readValue.eq_def]
  simp only [h]
  rfl

/-- Reading written members is reading the object around them. -/
theorem readObject_joined {a : JsonArg} {args : List JsonArg} {l : List Member}
    (h : readObject (123 :: (joined (a :: args) ++ [125])) = some l) :
    ∃ n r, (joined (a :: args)).length + 1 ≤ n ∧
      readMembers n (joined (a :: args) ++ [125]) = some (l, r) := by
  obtain ⟨u, hu⟩ := joined_head a args
  have hskip : skipWs (joined (a :: args) ++ [125]) = 34 :: (u ++ [125]) := by
    rw [hu]
    rfl
  have hbrace (s : Bytes) : skipWs (123 :: s) = 123 :: s := rfl
  unfold readObject at h
  rw [hbrace, readValue_open hskip] at h
  cases hm : readMembers (123 :: (joined (a :: args) ++ [125])).length
      (joined (a :: args) ++ [125]) with
  | none => rw [hm] at h; simp at h
  | some p =>
    rw [hm] at h
    simp only [Option.map_some] at h
    split_ifs at h
    obtain rfl := Option.some.inj h
    exact ⟨_, p.2, by simp, hm⟩

/-- The written object denotes the members it came from exactly when all survive. -/
theorem written_iff_survives {l : List Member} {args : List JsonArg}
    (hall : List.Forall₂ ArgOf l args)
    (hl : ∀ m ∈ l, m.2.depth ≤ jsonMaxNesting ∧ 0 ∉ decode m.1) :
    argumentsOf (123 :: (joined args ++ [125])) = some (mapMembers decode l) ↔
      ∀ m ∈ l, Survives m := by
  constructor
  · intro h
    obtain ⟨l', hread, hmap⟩ := Option.map_eq_some_iff.mp h
    cases hall with
    | nil => simp
    | cons ha hall =>
      obtain ⟨n, r, hn, hmem⟩ := readObject_joined hread
      exact survives_of_read (.cons ha hall) (by simp) hl hn hmem hmap
  · intro h
    cases hall with
    | nil => rfl
    | cons ha hall =>
      obtain ⟨l', hl', hmap⟩ := joined_of_survives (.cons ha hall) (by simp)
        fun m hm => ⟨h m hm, (hl m hm).2⟩
      rw [argumentsOf_members hl', hmap]

section OneCall
variable (c : ObjectCall)

theorem argumentsOf_call : argumentsOf c.call.arguments = some (mapMembers decode c.members) := by
  rw [argumentsOf, c.reads]
  rfl

/-- Arguments nested too deeply are written as one string, which is no member they had. -/
theorem deep_not_same (h : ¬ depthMembers c.members ≤ jsonMaxNesting)
    (hargs : jsonArgsParse c.call.arguments = none) : ¬ SameCall c.call (callRead c.call) := by
  rintro ⟨-, hsame⟩
  have hadd := addedValue_string (a := ⟨lit "arguments", c.call.arguments, true⟩) rfl
    (show ¬ lit "string=" <:+ lit "arguments" by decide +kernel)
  have htext := @MembersText.one [] _ [] [32] _ [] _ _ (by simp [Ws])
    (jsonEscape_text (lit "arguments")) (by simp [Ws]) (by simp [Ws, isWs])
    (.str (jsonEscape_text (dsmlUnescapeText (dsmlParameterText c.call.arguments))))
    (by simp [Ws])
  have hnew : (callRead c.call).arguments = 123 :: (memberText
      ⟨lit "arguments", c.call.arguments, true⟩ ++ [125]) := by
    simp only [callRead, renderedArgs, hargs, Option.getD_none, joined_eq]
    rfl
  have hargsOf := argumentsOf_members htext
  simp only [List.nil_append, List.append_nil, List.cons_append] at hargsOf
  rw [hnew, memberText, hadd, hargsOf, argumentsOf_call, Option.some.injEq] at hsame
  refine h (depthMembers_le_iff.mpr fun m hm => ?_)
  obtain ⟨k, v⟩ := m
  cases hl : c.members with
  | nil => simp [hl] at hm
  | cons m l =>
    obtain ⟨k', v'⟩ := m
    simp only [hl, mapMembers, List.cons.injEq, Prod.mk.injEq] at hsame
    obtain rfl : l = [] := by
      cases l with
      | nil => rfl
      | cons m l => simp [mapMembers] at hsame
    obtain ⟨rfl, rfl⟩ : k = k' ∧ v = v' := by simpa [hl] using hm
    cases v with
    | str es => simp [Value.depth]
    | null | bool | num | arr | obj => simp [Value.map] at hsame

theorem sameCall_iff : SameCall c.call (callRead c.call) ↔ ∀ m ∈ c.members, Survives m := by
  have htext := jsonArgsParse_text (readObject_iff.mp c.reads)
  by_cases hd : depthMembers c.members ≤ jsonMaxNesting
  · rw [if_pos hd] at htext
    obtain ⟨args, hargs, hall⟩ := htext
    have hnew : (callRead c.call).arguments = 123 :: (joined args ++ [125]) := by
      simp only [callRead, renderedArgs, hargs, Option.getD_some, joined_eq]
    have hdepth := depthMembers_le_iff.mp hd
    rw [← written_iff_survives hall fun m hm => ⟨hdepth m hm, c.keys_clean m hm⟩, SameCall, hnew,
      argumentsOf_call]
    exact ⟨fun h => h.2, fun h => ⟨rfl, h⟩⟩
  · rw [if_neg hd] at htext
    have hsurv : ¬ ∀ m ∈ c.members, Survives m := fun h =>
      hd (depthMembers_le_iff.mpr fun m hm => (h m hm).depth)
    simp only [hsurv, iff_false]
    exact deep_not_same c hd htext

end OneCall

/-- Rendered calls come back exactly when every member of every call survives. -/
theorem roundTrips_iff_survives {cs : List ObjectCall} (hne : cs ≠ []) :
    RoundTrips (cs.map ObjectCall.call) ↔ ∀ c ∈ cs, ∀ m ∈ c.members, Survives m := by
  rw [roundTrips_iff_calls (by simpa using hne)]
  simp only [List.mem_map, forall_exists_index, and_imp, forall_apply_eq_imp_iff₂, sameCall_iff]

/-- `run {"path":"a<b"}`. -/
def pathCall : ObjectCall where
  call := ⟨lit "run", lit "\x7b\"path\":\"a<b\"\x7d"⟩
  members := [([.byte 112, .byte 97, .byte 116, .byte 104], .str [.byte 97, .byte 60, .byte 98])]
  reads := by decide +kernel
  name_clean := by decide +kernel
  keys_clean := by decide +kernel
  keys_distinct := by decide +kernel

theorem pathCall_roundTrips : RoundTrips ([pathCall].map ObjectCall.call) := by
  refine (roundTrips_iff_survives (by simp)).mpr fun c hc m hm => ?_
  obtain rfl := List.mem_singleton.mp hc
  obtain rfl := List.mem_singleton.mp hm
  constructor
  · decide +kernel
  · decide +kernel
  all_goals
    intro es hes
    obtain rfl := Value.str.inj hes
    decide +kernel

/-- `run {"a":"&lt;"}`: the value is a literal entity. -/
def entityCall : ObjectCall where
  call := ⟨lit "run", lit "\x7b\"a\":\"&lt;\"\x7d"⟩
  members := [([.byte 97], .str [.byte 38, .byte 108, .byte 116, .byte 59])]
  reads := by decide +kernel
  name_clean := by decide +kernel
  keys_clean := by decide +kernel
  keys_distinct := by decide +kernel

/-- The entity comes back as the character it names. -/
theorem entityCall_lost :
    ¬ ∀ cs : List ObjectCall, cs ≠ [] → RoundTrips (cs.map ObjectCall.call) := by
  intro h
  have hall := (roundTrips_iff_calls (by simp)).mp (h [entityCall] (by simp))
  have hsame := (hall entityCall.call (by simp)).2
  exact absurd hsame (by decide +kernel)

end Ds4.Dsml
