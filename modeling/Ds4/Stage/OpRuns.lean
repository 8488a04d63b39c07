import Ds4.Stage.Alike

/-! Operations on two schedulers of one slot that hold the same: they do the same to both. -/
namespace Ds4.Stage
open Context State State.Prog

variable {F : Type}

/-- What the operations of a stage with one slot leave as it is. -/
structure OneSlot (o : SchedulerOptions) (stage : ℕ) (s : Scheduler F) : Prop where
  options : s.options = o
  slots : o.activeSlots = 1
  stage_eq : s.stage = stage
  values : ∀ buffer, (s.hc buffer 0).values = hcValues

section OneSlot
variable {o : SchedulerOptions} {stage : ℕ} {s : Scheduler F} (h : OneSlot o stage s)
include h

theorem OneSlot.setCur (buffer : HcBuffer) : OneSlot o stage (s.setCur 0 buffer) :=
  ⟨h.options, h.slots, h.stage_eq, h.values⟩

theorem OneSlot.setCache (layer : ℕ) (c : LayerCache F) :
    OneSlot o stage (s.setCache layer 0 c) := ⟨h.options, h.slots, h.stage_eq, h.values⟩

theorem OneSlot.setHc (buffer : HcBuffer) {t : Tensor F} (ht : t.values = hcValues) :
    OneSlot o stage (s.setHc buffer 0 t) := by
  constructor
  · exact h.options
  · exact h.slots
  · exact h.stage_eq
  · intro buffer'
    by_cases hb : buffer' = buffer
    · rw [hb, setHc_same]
      exact ht
    · rw [setHc_other s t (.inl hb)]
      exact h.values buffer'

end OneSlot

/-- Schedulers with related caches that agree on some of their hidden buffers. -/
structure Agree (R : ℕ → LayerCache F → LayerCache F → Prop) (o : SchedulerOptions) (stage : ℕ)
    (cur : HcBuffer) (known : HcBuffer → Prop) (s s' : Scheduler F) : Prop where
  left : OneSlot o stage s
  right : OneSlot o stage s'
  cur_left : s.curHc 0 = cur
  cur_right : s'.curHc 0 = cur
  hc : ∀ buffer, known buffer → s.hc buffer 0 = s'.hc buffer 0
  caches : ∀ layer ∈ stageLayers stage, R layer (s.caches layer 0) (s'.caches layer 0)

section Agree
variable {R : ℕ → LayerCache F → LayerCache F → Prop} {o : SchedulerOptions} {stage : ℕ}
  {cur : HcBuffer} {known : HcBuffer → Prop} {s s' : Scheduler F}
  (h : Agree R o stage cur known s s')
include h

theorem Agree.fewer {known' : HcBuffer → Prop} (hk : ∀ x, known' x → known x) :
    Agree R o stage cur known' s s' :=
  { h with hc := fun x hx => h.hc x (hk x hx) }

theorem Agree.setCur (buffer : HcBuffer) :
    Agree R o stage buffer known (s.setCur 0 buffer) (s'.setCur 0 buffer) where
  left := h.left.setCur buffer
  right := h.right.setCur buffer
  cur_left := setCur_same s 0 buffer
  cur_right := setCur_same s' 0 buffer
  hc := h.hc
  caches := h.caches

/-- Writing one hidden buffer of both makes it known. -/
theorem Agree.setHcRow (buffer : HcBuffer) (row : ℕ → List F) :
    Agree R o stage cur (fun x => known x ∨ x = buffer) (s.setHcRow buffer 0 row)
      (s'.setHcRow buffer 0 row) := by
  constructor
  · exact h.left.setHc buffer (h.left.values buffer)
  · exact h.right.setHc buffer (h.right.values buffer)
  · exact h.cur_left
  · exact h.cur_right
  · intro x hx
    show (s.setHc buffer 0 _).hc x 0 = (s'.setHc buffer 0 _).hc x 0
    by_cases hxb : x = buffer
    · rw [hxb, setHc_same, setHc_same]
      simp only [h.left.values, h.right.values]
    · rw [setHc_other _ _ (.inl hxb), setHc_other _ _ (.inl hxb)]
      exact h.hc x (hx.resolve_right hxb)
  · exact h.caches

theorem Agree.setCache {layer : ℕ} {c c' : LayerCache F} (hc : R layer c c') :
    Agree R o stage cur known (s.setCache layer 0 c) (s'.setCache layer 0 c') := by
  constructor
  · exact h.left.setCache layer c
  · exact h.right.setCache layer c'
  · exact h.cur_left
  · exact h.cur_right
  · exact h.hc
  · intro layer' hlayer'
    by_cases hl : layer' = layer
    · rw [hl, setCache_same, setCache_same]
      exact hc
    · have hne : (layer', 0) ≠ (layer, 0) := fun hp => hl (congrArg Prod.fst hp)
      rw [setCache_other c hne, setCache_other c' hne]
      exact h.caches layer' hlayer'

end Agree

theorem HcBuffer.eq_or_other (x y : HcBuffer) : x = y ∨ x = y.other := by
  cases x with
  | a =>
    cases y with
    | a => exact .inl rfl
    | b => exact .inr rfl
  | b =>
    cases y with
    | a => exact .inr rfl
    | b => exact .inl rfl

section Decode
variable {R : ℕ → LayerCache F → LayerCache F → Prop} (hR : ∀ layer, Closed (R layer))
  {o : SchedulerOptions} {stage : ℕ} {cur : HcBuffer} {known : HcBuffer → Prop} {K : Kernels F}
  {d : Device F} {fp8 : Bool}
include hR

omit hR in
theorem onCache_respects {α : Type} {layer : ℕ} {m : Prog (LayerCache F) α}
    (hlayer : layer ∈ stageLayers stage) (hm : Respects (R layer) m) :
    Respects (Agree R o stage cur known) (onCache layer 0 m) := by
  apply respects_zoom _ _ hm
  · intro s s' h
    exact h.caches layer hlayer
  · intro s s' c c' h hc
    exact h.setCache hc

/-- A layer reads the buffer that is known, and makes the other one known. -/
theorem layerExecuteHcDecode_sim {layer : ℕ} (hlayer : layer ∈ stageLayers stage)
    {buffer : HcBuffer} (hbuffer : known buffer) (token position : ℕ) :
    Sim (Agree R o stage cur known) (Agree R o stage cur fun x => known x ∨ x = buffer.other)
      (Agree R o stage cur known)
      (layerExecuteHcDecode K d fp8 layer 0 buffer token position) := by
  unfold layerExecuteHcDecode
  apply sim_readAt_bind
  · intro s s' _ h
    rw [h.hc buffer hbuffer]
  intro _ _ _ _
  apply sim_readAt_bind
  · intro s s' _ h
    exact ((hR layer).alike _ _ (h.caches layer hlayer)).validate layer
  intro s _ _ _
  cases validateDecodeCache layer (s.caches layer 0) with
  | error e =>
    intro t t' n h
    exact ⟨rfl, h, rfl⟩
  | ok u =>
    apply sim_bind (respects_call _)
    intro ok
    apply sim_require_bind
    intro _
    apply sim_bind
      (onCache_respects hlayer (prepareDecodeCacheAttention_respects (hR layer) _ _ _ _))
    intro inputs
    apply sim_bind (respects_call _)
    intro ok
    apply sim_require_bind
    intro _
    apply sim_readAt_bind
    · intro s s' _ h
      unfold LayerCache.rawRows
      rw [((hR layer).alike _ _ (h.caches layer hlayer)).rows]
    intro _ _ _ _
    apply sim_readAt_bind
    · intro s s' _ h
      unfold LayerCache.compressedRows
      rw [((hR layer).alike _ _ (h.caches layer hlayer)).rows]
    intro _ _ _ _
    apply sim_bind
    · apply sim_launch
      intro s s' h
      exact h.setHcRow _ _
    intro _
    have hlast : Respects (Agree R o stage cur fun x => known x ∨ x = buffer.other) (do
        require (← call d.answers) "HC final profile sync failed") := by
      apply respects_bind (respects_call _)
      intro ok
      exact respects_require _ _
    apply hlast.mono
    · intro s s' h
      exact h
    · intro s s' h
      exact h.fewer fun x hx => .inl hx

/-- After a layer both buffers are known. -/
theorem layerLoop_sim (token position : ℕ) (layers : List ℕ) :
    ∀ {known : HcBuffer → Prop} {buffer : HcBuffer}, layers ≠ [] →
      (∀ layer ∈ layers, layer ∈ stageLayers stage) → known buffer →
      Sim (Agree R o stage cur known) (Agree R o stage cur fun _ => True)
        (Agree R o stage cur known) (layerLoop K d fp8 0 token position layers buffer) := by
  induction layers with
  | nil =>
    intro known buffer hne
    exact absurd rfl hne
  | cons layer layers ih =>
    intro known buffer _ hin hbuffer
    rw [layerLoop]
    apply sim_bind (layerExecuteHcDecode_sim hR (hin layer List.mem_cons_self) hbuffer _ _)
    intro _
    have hrest : Sim (Agree R o stage cur fun x => known x ∨ x = buffer.other)
        (Agree R o stage cur fun _ => True)
          (Agree R o stage cur fun x => known x ∨ x = buffer.other)
        (do
          require (← call d.answers) "HC state is not finite"
          layerLoop K d fp8 0 token position layers buffer.other) := by
      apply sim_bind (respects_call _)
      intro ok
      apply sim_require_bind
      intro _
      by_cases hlayers : layers = []
      · rw [hlayers, layerLoop]
        apply (respects_pure _).mono
        · intro s s' h
          apply h.fewer
          intro x _
          rcases x.eq_or_other buffer with hx | hx
          · rw [hx]
            exact .inl hbuffer
          · exact .inr hx
        · intro s s' h
          exact h
      · apply ih hlayers
        · intro layer' hlayer'
          exact hin layer' (List.mem_cons_of_mem layer hlayer')
        · exact .inr rfl
    apply hrest.mono
    · intro s s' h
      exact h
    · intro s s' h
      exact h.fewer fun x hx => .inl hx

omit hR in
theorem validateSpan_bind {Q : Scheduler F → Scheduler F → Prop} {α : Type} {slot first last : ℕ}
    {m : PUnit → Prog (Scheduler F) α}
    (hm : slot = 0 → first ≤ last → layerBegin stage ≤ first → last ≤ layerEnd stage →
      Sim (Agree R o stage cur known) Q (Agree R o stage cur known) (m ⟨⟩)) :
    Sim (Agree R o stage cur known) Q (Agree R o stage cur known)
      (validateSpan d slot first last >>= m) := by
  unfold validateSpan
  simp only [bind_assoc]
  apply sim_readAt_bind
  · intro s s' _ h
    rw [h.left.options, h.right.options]
  intro s _ _ hs
  rw [hs.left.options, hs.left.slots]
  apply sim_require_bind
  intro hslot
  apply sim_readAt_bind
  · intro s s' _ h
    rw [h.left.stage_eq, h.right.stage_eq]
  intro s _ _ hs
  rw [hs.left.stage_eq]
  apply sim_require_bind
  intro horder
  apply sim_require_bind
  intro hinside
  apply sim_bind (respects_call _)
  intro ok
  apply sim_require_bind
  intro _
  apply sim_bind (respects_call _)
  intro ok
  apply sim_require_bind
  intro _
  simp only [Bool.and_eq_true, decide_eq_true_eq] at hslot horder hinside
  exact hm (by omega) horder hinside.1 hinside.2

end Decode

/-- Schedulers with related caches that agree on the buffers that `known` says, for the current
buffer. -/
def Agreeing (R : ℕ → LayerCache F → LayerCache F → Prop) (o : SchedulerOptions) (stage : ℕ)
    (known : HcBuffer → HcBuffer → Prop) (s s' : Scheduler F) : Prop :=
  ∃ cur, Agree R o stage cur (known cur) s s'

/-- Related caches and the same current hidden state. -/
abbrev SameCurrent (R : ℕ → LayerCache F → LayerCache F → Prop) (o : SchedulerOptions)
    (stage : ℕ) : Scheduler F → Scheduler F → Prop :=
  Agreeing R o stage fun cur x => x = cur

/-- The operations that write the hidden state before they read it. -/
def Op.Writes : Op F → Prop
  | .decodeHc .. => False
  | .decodeToken .. => True
  | .ffnMicrobatch .. => False
  | .handoff .. => True
  | .writeHc .. => True

section Ops
variable {R : ℕ → LayerCache F → LayerCache F → Prop} {o : SchedulerOptions} {stage : ℕ}
  {cur : HcBuffer} {K : Kernels F} {d : Device F} {fp8 : Bool}

theorem mem_span {first last layer : ℕ} (hfirst : layerBegin stage ≤ first)
    (hlast : last ≤ layerEnd stage) (h : layer ∈ List.range' first (last + 1 - first)) :
    layer ∈ stageLayers stage := by
  rw [List.mem_range'_1] at h
  rw [stageLayers, List.mem_range'_1]
  omega

theorem decodeHcLayerSpan_respects (hR : ∀ layer, Closed (R layer))
    (slot token position first last : ℕ) :
    Respects (SameCurrent R o stage)
      (decodeHcLayerSpan K d fp8 slot token position first last) := by
  apply sim_exists
  intro cur
  have hspan : Sim (Agree R o stage cur fun x => x = cur) (SameCurrent R o stage)
      (Agree R o stage cur fun x => x = cur)
      (decodeHcLayerSpan K d fp8 slot token position first last) := by
    unfold decodeHcLayerSpan
    apply validateSpan_bind
    rintro rfl horder hfirst hlast
    apply sim_readAt_bind
    · intro s s' _ h
      rw [h.cur_left, h.cur_right]
    intro s _ _ hs
    rw [hs.cur_left]
    apply sim_bind (Q := Agree R o stage cur fun _ => True)
    · apply layerLoop_sim hR token position
      · intro hnil
        have hlen := congrArg List.length hnil
        simp only [List.length_range', List.length_nil] at hlen
        omega
      · intro layer hlayer
        exact mem_span hfirst hlast hlayer
      · rfl
    · intro cur'
      apply sim_write
      intro s s' h
      exact ⟨cur', (h.setCur cur').fewer fun _ _ => trivial⟩
  exact hspan.mono (fun _ _ h => h) fun _ _ h => ⟨cur, h⟩

variable {known : HcBuffer → HcBuffer → Prop}

theorem seedHc_sim (row : ℕ → List F) (error : String) :
    Sim (Agree R o stage cur (known cur)) (SameCurrent R o stage)
      (Agree R o stage cur (known cur)) (seedHc d 0 row error) := by
  unfold seedHc
  apply sim_bind
  · apply sim_launch
    intro s s' h
    exact h.setHcRow .a row
  intro _
  apply sim_write
  intro s s' h
  exact ⟨.a, (h.setCur .a).fewer fun x hx => .inr hx⟩

/-- The part of a token decode up to the seed. -/
theorem decodeTokenLayerSpan_eq (slot token position first last : ℕ) :
    decodeTokenLayerSpan K d fp8 slot token position first last = (do
      let stage ← readAt fun s _ => s.stage
      require (stage = 0) "decode-token requires token-embedding stage"
      validateSpan d slot first last
      require (first = layerBegin stage)
        ("decode-token layer span must start at stage first layer " ++ toString (layerBegin stage))
      require (token < K.nVocab) "token outside embedding vocab"
      seedHc d slot (K.embed token)
        ("token embedding HC seed failed for slot " ++ toString slot)) >>= fun _ =>
      decodeHcLayerSpan K d fp8 slot token position first last := by
  simp only [decodeTokenLayerSpan, bind_assoc]

/-- An operation that writes the hidden state makes it known. -/
theorem Op.run_writes (hR : ∀ layer, Closed (R layer)) (hknown : ∀ cur x, known cur x → x = cur)
    {op : Op F} (hop : op.Writes) :
    Sim (Agreeing R o stage known) (SameCurrent R o stage) (Agreeing R o stage known)
      (op.run K d fp8) := by
  have hless : ∀ s s' : Scheduler F, SameCurrent R o stage s s' →
    Agreeing R o stage known s s' := by
    rintro s s' ⟨cur, h⟩
    exact ⟨cur, h.fewer (hknown cur)⟩
  apply sim_exists
  intro cur
  have hmore : ∀ s s' : Scheduler F, Agree R o stage cur (known cur) s s' →
      Agreeing R o stage known s s' := fun s s' h => ⟨cur, h⟩
  cases op with
  | decodeHc slot token position first last => exact absurd hop not_false
  | ffnMicrobatch slot token position layer => exact absurd hop not_false
  | decodeToken slot token position first last =>
    show Sim _ _ _ (decodeTokenLayerSpan K d fp8 slot token position first last)
    rw [decodeTokenLayerSpan_eq]
    apply sim_bind (Q := SameCurrent R o stage)
    · apply Sim.mono _ (fun _ _ h => h) hmore
      apply sim_readAt_bind
      · intro s s' _ h
        rw [h.left.stage_eq, h.right.stage_eq]
      intro _ _ _ _
      apply sim_require_bind
      intro _
      apply validateSpan_bind
      rintro rfl - - -
      apply sim_require_bind
      intro _
      apply sim_require_bind
      intro _
      exact seedHc_sim _ _
    · intro _
      apply (decodeHcLayerSpan_respects hR _ _ _ _ _).mono (fun _ _ h => h)
      exact hless
  | handoff slot row =>
    apply Sim.mono _ (fun _ _ h => h) hmore
    show Sim _ _ _ (handoffSlot d slot row)
    unfold handoffSlot
    apply sim_readAt_bind
    · intro s s' _ h
      rw [h.left.options, h.right.options]
    intro s _ _ hs
    rw [hs.left.options, hs.left.slots]
    apply sim_require_bind
    intro hslot
    obtain rfl : slot = 0 := by simpa using hslot
    exact seedHc_sim row _
  | writeHc row =>
    apply Sim.mono _ (fun _ _ h => h) hmore
    show Sim _ _ _ (Stage.writeHc d row)
    unfold Stage.writeHc
    apply sim_bind (respects_call _)
    intro ok
    apply sim_require_bind
    intro _
    exact seedHc_sim row _

theorem Op.run_respects (hR : ∀ layer, Closed (R layer)) (op : Op F) :
    Respects (SameCurrent R o stage) (op.run K d fp8) := by
  cases op with
  | decodeHc slot token position first last => exact decodeHcLayerSpan_respects hR _ _ _ _ _
  | decodeToken slot token position first last =>
    exact Op.run_writes hR (fun _ _ h => h) trivial
  | handoff slot row => exact Op.run_writes hR (fun _ _ h => h) trivial
  | writeHc row => exact Op.run_writes hR (fun _ _ h => h) trivial
  | ffnMicrobatch slot token position layer =>
    apply sim_exists
    intro cur
    have hlayer : Sim (Agree R o stage cur fun x => x = cur) (SameCurrent R o stage)
        (Agree R o stage cur fun x => x = cur)
        (decodeHcFfnMicrobatchLayer K d fp8 slot token position layer) := by
      unfold decodeHcFfnMicrobatchLayer
      apply validateSpan_bind
      rintro rfl - hfirst hlast
      apply sim_readAt_bind
      · intro s s' _ h
        rw [h.cur_left, h.cur_right]
      intro s _ _ hs
      rw [hs.cur_left]
      have hin : layer ∈ stageLayers stage := by
        rw [stageLayers, List.mem_range'_1]
        omega
      apply sim_bind (Q := Agree R o stage cur fun x => x = cur ∨ x = cur.other)
      · apply layerExecuteHcDecode_sim hR hin
        rfl
      intro _
      apply sim_write
      intro s s' h
      exact ⟨cur.other, (h.setCur cur.other).fewer fun x hx => .inr hx⟩
    exact hlayer.mono (fun _ _ h => h) fun _ _ h => ⟨cur, h⟩

theorem SameCurrent.hidden {s s' : Scheduler F} (h : SameCurrent R o stage s s') :
    s.hidden 0 = s'.hidden 0 := by
  obtain ⟨cur, hc⟩ := h
  unfold Scheduler.hidden
  rw [hc.cur_left, hc.cur_right]
  exact hc.hc cur rfl

/-- From the same current hidden state a caller sees the same run. -/
theorem runOps_same (hR : ∀ layer, Closed (R layer)) (ops : List (Op F)) :
    ∀ (s s' : Scheduler F) (n : ℕ), SameCurrent R o stage s s' →
      (runOps K d fp8 (s, n) ops).1 = (runOps K d fp8 (s', n) ops).1 ∧
      SameCurrent R o stage (runOps K d fp8 (s, n) ops).2.1 (runOps K d fp8 (s', n) ops).2.1 := by
  induction ops with
  | nil =>
    intro s s' n h
    exact ⟨rfl, h⟩
  | cons op ops ih =>
    intro s s' n h
    have hop : Respects (SameCurrent R o stage) (op.run K d fp8) := Op.run_respects hR op
    have hout := hop s s' n h
    rw [runOps, runOps]
    cases hr : op.run K d fp8 (s, n) with
    | ok a t =>
      cases hr' : op.run K d fp8 (s', n) with
      | ok a' t' =>
        rw [hr, hr'] at hout
        obtain ⟨x, k⟩ := t
        obtain ⟨y, k'⟩ := t'
        obtain ⟨-, hxy, rfl⟩ : a = a' ∧ SameCurrent R o stage x y ∧ k = k' := hout
        have hrest := ih x y k hxy
        constructor
        · simp only [hxy.hidden, hrest.1]
        · exact hrest.2
      | error e t' =>
        rw [hr, hr'] at hout
        exact absurd hout not_false
    | error e t =>
      cases hr' : op.run K d fp8 (s', n) with
      | ok a' t' =>
        rw [hr, hr'] at hout
        exact absurd hout not_false
      | error e' t' =>
        rw [hr, hr'] at hout
        obtain ⟨x, k⟩ := t
        obtain ⟨y, k'⟩ := t'
        obtain ⟨rfl, hxy, rfl⟩ : e = e' ∧ SameCurrent R o stage x y ∧ k = k' := hout
        have hrest := ih x y k hxy
        constructor
        · simp only [hxy.hidden, hrest.1]
        · exact hrest.2

end Ops

end Ds4.Stage
