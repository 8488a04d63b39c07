import Ds4.State.Wp
import Ds4.Gguf.Directory
import Mathlib.Algebra.Order.Floor.Div

/-! What an accepted file holds: header, metadata entries and directory entries one behind
another, each inside the file. -/
namespace Ds4.Gguf
open State

variable (file : MappedFile)

def u32At (pos : ℕ) : ℕ := leNat (file.region pos 4)

def u64At (pos : ℕ) : ℕ := leNat (file.region pos 8)

/-- Parts that lie one behind another between two positions. -/
def Laid {α : Type} (part : α → ℕ → ℕ → Prop) : List α → ℕ → ℕ → Prop
  | [], pos, stop => stop = pos
  | a :: as, pos, stop => ∃ mid, part a pos mid ∧ Laid part as mid stop

/-- `n` equal parts one behind another. -/
def LaidTimes (part : ℕ → ℕ → Prop) : ℕ → ℕ → ℕ → Prop
  | 0, pos, stop => stop = pos
  | n + 1, pos, stop => ∃ mid, part pos mid ∧ LaidTimes part n mid stop

/-- A metadata value of the type between two positions, of known types and with fewer than
`levels` arrays around any item. -/
def ValueAt : ℕ → ℕ → ℕ → ℕ → Prop
  | 0, _, _, _ => False
  | levels + 1, type, pos, stop =>
      (scalarValueSize type ≠ 0 ∧ stop = pos + scalarValueSize type) ∨
      (type = valueString ∧ stop = pos + 8 + u64At file pos) ∨
      (type = valueArray ∧ scalarValueSize (u32At file pos) ≠ 0 ∧
        stop = pos + 12 + u64At file (pos + 4) * scalarValueSize (u32At file pos)) ∨
      (type = valueArray ∧ scalarValueSize (u32At file pos) = 0 ∧
        LaidTimes (ValueAt levels (u32At file pos)) (u64At file (pos + 4)) (pos + 12) stop)

structure KvAt (kv : Kv) (pos stop : ℕ) : Prop where
  key : kv.key = ⟨pos + 8, u64At file pos⟩
  type : kv.type = u32At file (pos + 8 + kv.key.len)
  valuePos : kv.valuePos = pos + 12 + kv.key.len
  value : ValueAt file 9 kv.type kv.valuePos stop

structure TensorAt (t : Tensor) (pos stop : ℕ) : Prop where
  name : t.name = ⟨pos + 8, u64At file pos⟩
  ndim : t.ndim = u32At file (pos + 8 + t.name.len)
  ndim_pos : t.ndim ≠ 0
  ndim_le : t.ndim ≤ maxDims
  dim : t.dim = (List.range t.ndim).map fun i => u64At file (pos + 12 + t.name.len + 8 * i)
  type : t.type = u32At file (pos + 12 + t.name.len + 8 * t.ndim)
  relOffset : t.relOffset = u64At file (pos + 16 + t.name.len + 8 * t.ndim)
  stop_eq : stop = pos + 24 + t.name.len + 8 * t.ndim
  elements : t.elements = t.dim.prod
  elements_lt : t.elements < 2 ^ 64
  bytes : t.bytes = (tensorNbytes t.type t.elements).getD 0

/-- The place of a tensor: its offset does not wrap and its bytes end inside the file. -/
structure PlacedAt (dataPos : ℕ) (t : Tensor) : Prop where
  absOffset : t.absOffset = dataPos + t.relOffset
  offset_lt : t.absOffset < 2 ^ 64
  inside : t.bytes ≠ 0 → t.absOffset + t.bytes ≤ file.size

/-- A well-formed file and the model read from it. -/
structure Accepted (m : Model) : Prop where
  size : 32 ≤ file.size
  magic : u32At file 0 = ggufMagic
  version : m.version = u32At file 4 ∧ m.version = 3
  nTensors : m.tensors.length = u64At file 8
  nKv : m.kv.length = u64At file 16
  alignment : m.alignment ≠ 0
  directory : ∃ kvEnd dirEnd, Laid (KvAt file) m.kv 24 kvEnd ∧
    Laid (TensorAt file) m.tensors kvEnd dirEnd ∧ dirEnd ≤ file.size ∧
    m.tensorDataPos = dirEnd ⌈/⌉ m.alignment * m.alignment
  placed : ∀ t ∈ m.tensors, PlacedAt file m.tensorDataPos t

/-- A cursor whose reads all lay inside the file, and which moved on by more bytes than it
made reads. -/
structure Inside (k : ℕ) (c : Cursor) : Prop where
  pos_le : c.pos ≤ file.size
  spans : ∀ r ∈ c.reads, r.start + r.len ≤ file.size
  room : c.reads.length + k ≤ c.pos

variable {file} {k : ℕ} {c : Cursor}

theorem Inside.mono {j : ℕ} (h : Inside file k c) (hj : j ≤ k) : Inside file j c :=
  ⟨h.pos_le, h.spans, by have := h.room; omega⟩

theorem size_lt (file : MappedFile) : file.size < 2 ^ 63 := file.fits

theorem leNat_lt (s : Bytes) : leNat s < 256 ^ s.length := by
  induction s with
  | nil => simp [leNat]
  | cons b s ih =>
    have hb := b.toNat_lt
    rw [leNat, List.length_cons, pow_succ]
    omega

theorem region_length_le (start len : ℕ) : (file.region start len).length ≤ len := by
  rw [MappedFile.region, List.length_take]
  exact min_le_left _ _

theorem u32At_lt (pos : ℕ) : u32At file pos < 2 ^ 32 :=
  (leNat_lt _).trans_le (Nat.pow_le_pow_right (by norm_num) (region_length_le pos 4))

@[simp] theorem wp_orDie {α : Type} (r : Run Unit α) (Q : α → Cursor → Prop)
    (E : Cursor → Prop) (c : Cursor) : wp (orDie r) Q E c = wp r Q E c := by
  unfold wp orDie
  cases r c with
  | ok a s => rfl
  | error e s => rfl

section Cursor
variable {Q : Unit → Cursor → Prop}

theorem cursorFail_wp {α : Type} {P : α → Cursor → Prop} (msg : String)
    (h : Inside file k c) : wp (cursorFail msg) P (Inside file 0) c := by
  simp only [cursorFail, wp_bind, wp_modify, wp_throw]
  split
  · exact ⟨h.pos_le, h.spans, by have := h.room; simp only; omega⟩
  · exact h.mono (Nat.zero_le k)

theorem cursorHas_wp (n : ℕ) (h : Inside file k c) :
    wp (cursorHas file n) (fun _ c' => c' = c ∧ c.pos + n ≤ file.size) (Inside file 0) c := by
  simp only [cursorHas, wp_bind, wp_get]
  apply wp_ite
  · intro _
    exact cursorFail_wp _ h
  · intro hn
    simp only [wp_pure, true_and]
    omega

/-- A move inside the file does not wrap. -/
theorem Inside.advance {n : ℕ} (h : Inside file k c) (hn : c.pos + n ≤ file.size) :
    u64 (c.pos + n) = c.pos + n ∧ Inside file (k + n) { c with pos := u64 (c.pos + n) } := by
  have hs := size_lt file
  have hw : u64 (c.pos + n) = c.pos + n := Nat.mod_eq_of_lt (by omega)
  constructor
  · exact hw
  · constructor
    · simpa only [hw] using hn
    · exact h.spans
    · have hr := h.room
      simp only [hw]
      omega

theorem Inside.noteRead {start len : ℕ} (h : Inside file (k + 1) c)
    (hin : start + len ≤ file.size) :
    Inside file k { c with reads := c.reads ++ [⟨start, len⟩] } := by
  constructor
  · exact h.pos_le
  · intro r hr
    rcases List.mem_append.1 hr with hr | hr
    · exact h.spans r hr
    · rw [List.mem_singleton.1 hr]
      exact hin
  · have hr := h.room
    simp only [List.length_append, List.length_singleton]
    omega

theorem cursorSkip_wp (n : ℕ) (h : Inside file k c) :
    wp (cursorSkip file n) (fun _ c' => c'.pos = c.pos + n ∧ Inside file (k + n) c')
      (Inside file 0) c := by
  apply wp_seq (cursorHas_wp n h)
  rintro _ _ ⟨rfl, hn⟩
  exact h.advance hn

theorem cursorRead_wp (n : ℕ) (h : Inside file k c) (hk : n ≠ 0) :
    wp (cursorRead file n)
      (fun b c' => b = file.region c.pos n ∧ c'.pos = c.pos + n ∧ Inside file (k + n - 1) c')
      (Inside file 0) c := by
  apply wp_seq (cursorHas_wp n h)
  rintro _ _ ⟨rfl, hn⟩
  obtain ⟨hw, hin⟩ := h.advance hn
  have hroom : k + n = k + n - 1 + 1 := by omega
  rw [hroom] at hin
  exact ⟨rfl, hw, hin.noteRead hn⟩

theorem cursorU32_wp (h : Inside file k c) :
    wp (cursorU32 file)
      (fun v c' => v = u32At file c.pos ∧ c'.pos = c.pos + 4 ∧ Inside file (k + 3) c')
      (Inside file 0) c := by
  apply wp_seq (cursorRead_wp 4 h (by norm_num))
  rintro b c' ⟨rfl, hp, hin⟩
  exact ⟨rfl, hp, hin⟩

theorem cursorU64_wp (h : Inside file k c) :
    wp (cursorU64 file)
      (fun v c' => v = u64At file c.pos ∧ c'.pos = c.pos + 8 ∧ Inside file (k + 7) c')
      (Inside file 0) c := by
  apply wp_seq (cursorRead_wp 8 h (by norm_num))
  rintro b c' ⟨rfl, hp, hin⟩
  exact ⟨rfl, hp, hin⟩

theorem cursorString_wp (h : Inside file k c) :
    wp (cursorString file)
      (fun s c' => s = ⟨c.pos + 8, u64At file c.pos⟩ ∧ c'.pos = c.pos + 8 + s.len ∧
        Inside file (k + 7) c') (Inside file 0) c := by
  apply wp_seq (cursorU64_wp h)
  rintro len c₁ ⟨rfl, hp, hin⟩
  apply wp_seq (cursorHas_wp _ hin)
  rintro _ _ ⟨rfl, hn⟩
  obtain ⟨hw, hadv⟩ := hin.advance hn
  refine ⟨?_, ?_, hadv.mono (Nat.le_add_right _ _)⟩
  · rw [hp]
  · rw [← hp]
    exact hw

end Cursor

section Values

theorem repeatStep_wp {step : Run Unit Unit} {part : ℕ → ℕ → Prop}
    (hstep : ∀ c, Inside file k c →
      wp step (fun _ c' => part c.pos c'.pos ∧ Inside file k c') (Inside file 0) c) (n : ℕ) :
    ∀ c, Inside file k c → wp (repeatStep step n)
      (fun _ c' => LaidTimes part n c.pos c'.pos ∧ Inside file k c') (Inside file 0) c := by
  induction n with
  | zero =>
    intro c h
    exact ⟨rfl, h⟩
  | succ n ih =>
    intro c h
    apply wp_seq (hstep c h)
    rintro _ c₁ ⟨hpart, hin⟩
    apply wp_post (ih c₁ hin)
    rintro _ c₂ ⟨hrest, hin₂⟩
    exact ⟨⟨c₁.pos, hpart, hrest⟩, hin₂⟩

/-- The check of the item count excludes a wrap of the byte count. -/
theorem items_no_wrap {len itemSize : ℕ} (h : ¬maxU64 / itemSize < len) :
    u64 (len * itemSize) = len * itemSize := by
  apply Nat.mod_eq_of_lt
  have hle : len * itemSize ≤ maxU64 :=
    (Nat.mul_le_mul_right _ (not_lt.1 h)).trans (Nat.div_mul_le_self _ _)
  have hmax : maxU64 < 2 ^ 64 := by norm_num [maxU64]
  omega

/-- Skipping a value stays inside the file and goes exactly over the value. -/
theorem skipValue_wp (levels : ℕ) : ∀ (type : ℕ) (c : Cursor), Inside file k c →
    wp (skipValue file levels type)
      (fun _ c' => ValueAt file levels type c.pos c'.pos ∧ Inside file k c')
      (Inside file 0) c := by
  induction levels with
  | zero =>
    intro type c h
    exact cursorFail_wp _ h
  | succ levels ih =>
    intro type c h
    rw [skipValue]
    apply wp_ite
    · intro hs
      apply wp_post (cursorSkip_wp _ h)
      rintro _ c' ⟨hp, hin⟩
      exact ⟨Or.inl ⟨hs, hp⟩, hin.mono (Nat.le_add_right _ _)⟩
    intro _
    apply wp_ite
    · intro hstr
      apply wp_seq (cursorString_wp h)
      rintro s c' ⟨rfl, hp, hin⟩
      exact ⟨Or.inr (Or.inl ⟨hstr, hp⟩), hin.mono (Nat.le_add_right _ _)⟩
    intro _
    apply wp_ite
    · intro harr
      apply wp_seq (cursorU32_wp h)
      rintro itemType c₁ ⟨rfl, hp₁, hin₁⟩
      apply wp_seq (cursorU64_wp hin₁)
      rintro len c₂ ⟨rfl, hp₂, hin₂⟩
      rw [hp₁] at hp₂ ⊢
      have hk : Inside file k c₂ := hin₂.mono (by omega)
      apply wp_ite
      · intro hitem
        apply wp_ite
        · intro _
          exact cursorFail_wp _ hin₂
        · intro hlen
          apply wp_post (cursorSkip_wp _ hk)
          rintro _ c' ⟨hp, hin⟩
          rw [items_no_wrap hlen, hp₂] at hp
          exact ⟨Or.inr (Or.inr (Or.inl ⟨harr, hitem, hp⟩)), hin.mono (Nat.le_add_right _ _)⟩
      · intro hitem
        apply wp_post (repeatStep_wp (ih (u32At file c.pos)) _ c₂ hk)
        rintro _ c' ⟨hitems, hin⟩
        rw [hp₂] at hitems
        exact ⟨Or.inr (Or.inr (Or.inr ⟨harr, not_not.1 hitem, hitems⟩)), hin⟩
    · intro _
      exact cursorFail_wp _ h

end Values

end Ds4.Gguf
