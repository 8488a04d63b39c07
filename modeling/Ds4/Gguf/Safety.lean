import Ds4.Gguf.Layout

/-! The loader reads inside the file only, and what it accepts is well formed. -/
namespace Ds4.Gguf
open State

variable {file : MappedFile} {k : ℕ} {c : Cursor}

section Metadata

theorem cursorU32_failed_reads (file : MappedFile) (c : Cursor) :
    wp (cursorU32 file) (fun _ _ => True) (fun c' => c'.reads = c.reads) c := by
  simp only [cursorU32, cursorRead, cursorHas, wp_bind, wp_get]
  apply wp_ite
  · intro _
    simp only [cursorFail, wp_bind, wp_modify, wp_throw]
    split <;> rfl
  · intro _
    trivial

/-- A peek at the cursor's position leaves it where it was. -/
theorem peekU32_wp (h : Inside file (k + 1) c) :
    wp (peekU32 file c.pos)
      (fun v c' => (∀ u ∈ v, u = u32At file c.pos) ∧ c'.pos = c.pos ∧ Inside file k c')
      (Inside file 0) c := by
  have htmp : Inside file (k + 1) { c with pos := c.pos, error := "" } :=
    ⟨h.pos_le, h.spans, h.room⟩
  have hread := cursorU32_wp htmp
  have hfail := cursorU32_failed_reads file { c with pos := c.pos, error := "" }
  unfold wp at hread hfail
  unfold wp peekU32
  cases hr : cursorU32 file { c with pos := c.pos, error := "" } with
  | ok v tmp =>
    rw [hr] at hread
    obtain ⟨hv, hp, hin⟩ := hread
    refine ⟨?_, rfl, h.pos_le, hin.spans, ?_⟩
    · intro u hu
      rw [← Option.some.inj hu]
      exact hv
    · have hroom := hin.room
      simp only at hp ⊢
      omega
  | error e tmp =>
    rw [hr] at hfail
    simp only at hfail
    refine ⟨by simp, rfl, h.pos_le, ?_, ?_⟩
    · simp only [hfail]
      exact h.spans
    · have hroom := h.room
      simp only [hfail]
      omega

theorem readAlignment_wp {key : Str} {type alignment : ℕ} (h : Inside file (k + 2) c)
    (hkey : key.ptr + key.len ≤ file.size) (ha : alignment ≠ 0 ∧ alignment < 2 ^ 32) :
    wp (readAlignment file key type c.pos alignment)
      (fun a c' => (a ≠ 0 ∧ a < 2 ^ 32) ∧ c'.pos = c.pos ∧ Inside file k c')
      (Inside file 0) c := by
  have hstreq : wp (streq file key (lit "general.alignment") : Run String Bool)
      (fun _ c' => c'.pos = c.pos ∧ Inside file (k + 1) c') (Inside file 0) c := by
    apply wp_ite
    · intro hlen
      exact ⟨rfl, h.noteRead (by omega)⟩
    · intro _
      exact ⟨rfl, h.mono (by omega)⟩
  apply wp_seq hstreq
  rintro named c₁ ⟨hp₁, hin₁⟩
  rw [← hp₁]
  apply wp_ite
  · intro _
    apply wp_seq (peekU32_wp hin₁)
    rintro v c₂ ⟨hv, hp₂, hin₂⟩
    cases v with
    | none => exact ⟨ha, hp₂, hin₂⟩
    | some v =>
      refine ⟨?_, hp₂, hin₂⟩
      by_cases hz : v ≠ 0
      · rw [if_pos hz, hv v rfl]
        exact ⟨hv v rfl ▸ hz, u32At_lt _⟩
      · rw [if_neg hz]
        exact ha
  · intro _
    exact ⟨ha, rfl, hin₁.mono (by omega)⟩

theorem parseKv_wp {alignment : ℕ} (h : Inside file k c)
    (ha : alignment ≠ 0 ∧ alignment < 2 ^ 32) :
    wp (parseKv file alignment)
      (fun r c' => KvAt file r.1 c.pos c'.pos ∧ (r.2 ≠ 0 ∧ r.2 < 2 ^ 32) ∧ Inside file k c')
      (Inside file 0) c := by
  apply wp_seq ((wp_orDie _ _ _ _).mpr (cursorString_wp h))
  rintro key c₁ ⟨hkey, hp₁, hin₁⟩
  apply wp_seq ((wp_orDie _ _ _ _).mpr (cursorU32_wp hin₁))
  rintro type c₂ ⟨htype, hp₂, hin₂⟩
  have hend : key.ptr + key.len ≤ file.size := by
    have hle := hin₁.pos_le
    rw [hkey] at hp₁ ⊢
    simp only at hp₁ ⊢
    omega
  rw [wp_bind, wp_get]
  apply wp_seq (readAlignment_wp (k := k) (hin₂.mono (by omega)) hend ha)
  rintro a c₃ ⟨ha₃, hp₃, hin₃⟩
  apply wp_seq ((wp_orDie _ _ _ _).mpr (skipValue_wp 9 type c₃ hin₃))
  rintro _ c₄ ⟨hval, hin₄⟩
  refine ⟨⟨hkey, ?_, ?_, ?_⟩, ha₃, hin₄⟩
  · rw [htype, hp₁]
  · simp only
    omega
  · rw [hp₃] at hval
    exact hval

theorem parseKvs_wp (n : ℕ) : ∀ {alignment : ℕ} {c : Cursor}, Inside file k c →
    (alignment ≠ 0 ∧ alignment < 2 ^ 32) →
    wp (parseKvs file n alignment)
      (fun r c' => Laid (KvAt file) r.1 c.pos c'.pos ∧ r.1.length = n ∧
        (r.2 ≠ 0 ∧ r.2 < 2 ^ 32) ∧ Inside file k c') (Inside file 0) c := by
  induction n with
  | zero =>
    intro alignment c h ha
    exact ⟨rfl, rfl, ha, h⟩
  | succ n ih =>
    intro alignment c h ha
    apply wp_seq (parseKv_wp h ha)
    rintro kv c₁ ⟨hkv, ha₁, hin₁⟩
    apply wp_seq (ih hin₁ ha₁)
    rintro rest c₂ ⟨hrest, hlen, ha₂, hin₂⟩
    exact ⟨⟨c₁.pos, hkv, hrest⟩, congrArg Nat.succ hlen, ha₂, hin₂⟩

end Metadata

section Tensors

/-- The check before a factor excludes a wrap of the product. -/
theorem factor_no_wrap {elements d : ℕ} (h : ¬(d ≠ 0 ∧ maxU64 / d < elements)) :
    elements * d < 2 ^ 64 := by
  by_cases hd : d = 0
  · rw [hd, Nat.mul_zero]
    norm_num
  · have hle : elements ≤ maxU64 / d := by
      by_contra hlt
      exact h ⟨hd, not_le.1 hlt⟩
    have hmul : elements * d ≤ maxU64 :=
      (Nat.mul_le_mul_right _ hle).trans (Nat.div_mul_le_self _ _)
    have hmax : maxU64 < 2 ^ 64 := by norm_num [maxU64]
    omega

/-- The product of the dimensions is the true one, with no wrap. -/
theorem parseDims_wp (n : ℕ) : ∀ {elements : ℕ} {c : Cursor}, Inside file k c →
    elements < 2 ^ 64 →
    wp (parseDims file n elements)
      (fun r c' => r.1 = (List.range n).map (fun i => u64At file (c.pos + 8 * i)) ∧
        r.2 = elements * r.1.prod ∧ r.2 < 2 ^ 64 ∧ c'.pos = c.pos + 8 * n ∧ Inside file k c')
      (Inside file 0) c := by
  induction n with
  | zero =>
    intro elements c h he
    exact ⟨rfl, (mul_one _).symm, he, rfl, h⟩
  | succ n ih =>
    intro elements c h he
    apply wp_seq ((wp_orDie _ _ _ _).mpr (cursorU64_wp h))
    rintro d c₁ ⟨hd, hp₁, hin₁⟩
    apply wp_ite
    · intro _
      exact hin₁.mono (Nat.zero_le _)
    · intro hcheck
      have hfit := factor_no_wrap hcheck
      have hw : u64 (elements * d) = elements * d := Nat.mod_eq_of_lt hfit
      rw [hw]
      apply wp_seq (ih (hin₁.mono (Nat.le_add_right _ _)) hfit)
      rintro rest c₂ ⟨hdims, hprod, hlt, hp₂, hin₂⟩
      refine ⟨?_, ?_, hlt, ?_, hin₂⟩
      · have hshift : rest.1 = (List.range n).map (fun i => u64At file (c.pos + 8 * (i + 1))) := by
          rw [hdims, hp₁]
          apply List.map_congr_left
          intro i _
          have hpos : c.pos + 8 + 8 * i = c.pos + 8 * (i + 1) := by omega
          rw [hpos]
        rw [List.range_succ_eq_map, List.map_cons, List.map_map, hd, hshift]
        rfl
      · rw [hprod, List.prod_cons, mul_assoc]
      · rw [hp₂, hp₁]
        omega

/-- A number below 256 ends in a zero byte. -/
theorem second_byte_zero {pos : ℕ} (hn : u32At file pos < 256) (hin : pos + 4 ≤ file.size) :
    file.bytes[pos + 1]? = some 0 := by
  have hbyte : file.bytes[pos + 1]? = (file.region pos 4)[1]? := by
    rw [MappedFile.region, List.getElem?_take_of_lt (by norm_num), List.getElem?_drop]
  have hlen : (file.region pos 4).length = 4 := by
    rw [MappedFile.region, List.length_take, List.length_drop]
    have hs : file.size = file.bytes.length := rfl
    omega
  rw [hbyte]
  obtain ⟨a, b, rest, hr⟩ : ∃ a b rest, file.region pos 4 = a :: b :: rest := by
    rcases hreg : file.region pos 4 with _ | ⟨a, _ | ⟨b, rest⟩⟩
    · simp [hreg] at hlen
    · simp [hreg] at hlen
    · exact ⟨a, b, rest, rfl⟩
  have hb : b.toNat = 0 := by
    rw [u32At, hr, leNat, leNat] at hn
    omega
  rw [hr]
  exact congrArg some (UInt8.toNat_inj.1 hb)

/-- The name of a warning ends at the latest in the zero bytes of the dimension count. -/
theorem printedLength_inside {name : Str} (hn : u32At file (name.ptr + name.len) < 256)
    (hin : name.ptr + name.len + 4 ≤ file.size) :
    name.ptr + printedLength file name ≤ file.size := by
  have hzero := second_byte_zero hn hin
  have hshown : ((file.bytes.drop name.ptr).takeWhile (· ≠ 0)).length ≤ name.len + 1 := by
    by_contra hlong
    have hget : (file.bytes.drop name.ptr)[name.len + 1]? = some 0 := by
      rw [List.getElem?_drop, ← Nat.add_assoc]
      exact hzero
    obtain ⟨rest, hrest⟩ := List.takeWhile_prefix (l := file.bytes.drop name.ptr) (· ≠ 0)
    rw [← hrest, List.getElem?_append_left (by omega)] at hget
    simpa using List.mem_takeWhile_imp (List.mem_of_getElem? hget)
  have hmod := Nat.mod_le name.len (2 ^ 32)
  simp only [printedLength]
  split <;> omega

theorem warnType_wp {name : Str} (type : ℕ) (h : Inside file (k + 1) c)
    (hn : u32At file (name.ptr + name.len) < 256)
    (hin : name.ptr + name.len + 4 ≤ file.size) :
    wp (warnType file name type) (fun _ c' => c'.pos = c.pos ∧ Inside file k c')
      (Inside file 0) c := by
  have hread := h.noteRead (printedLength_inside hn hin)
  exact ⟨rfl, hread.pos_le, hread.spans, hread.room⟩

theorem parseTensor_wp (h : Inside file k c) :
    wp (parseTensor file) (fun t c' => TensorAt file t c.pos c'.pos ∧ Inside file k c')
      (Inside file 0) c := by
  apply wp_seq ((wp_orDie _ _ _ _).mpr (cursorString_wp h))
  rintro name c₁ ⟨hname, hp₁, hin₁⟩
  apply wp_seq ((wp_orDie _ _ _ _).mpr (cursorU32_wp hin₁))
  rintro ndim c₂ ⟨hndim, hp₂, hin₂⟩
  apply wp_ite
  · intro _
    exact hin₂.mono (Nat.zero_le _)
  intro hdims
  push Not at hdims
  apply wp_seq (parseDims_wp ndim hin₂ (by norm_num))
  rintro dims c₃ ⟨hdim, hprod, hlt, hp₃, hin₃⟩
  apply wp_seq ((wp_orDie _ _ _ _).mpr (cursorU32_wp hin₃))
  rintro type c₄ ⟨htype, hp₄, hin₄⟩
  apply wp_seq ((wp_orDie _ _ _ _).mpr (cursorU64_wp hin₄))
  rintro relOffset c₅ ⟨hrel, hp₅, hin₅⟩
  have hat : ∀ bytes, bytes = (tensorNbytes type dims.2).getD 0 → TensorAt file
      ⟨name, ndim, dims.1, type, relOffset, 0, dims.2, bytes⟩ c.pos c₅.pos := by
    intro bytes hb
    have hlen : name.len = u64At file c.pos := by rw [hname]
    refine ⟨hname, ?_, hdims.1, hdims.2, ?_, ?_, ?_, ?_, ?_, hlt, hb⟩
    · simp only
      rw [hndim, hp₁]
    · simp only
      rw [hdim, hp₂, hp₁]
      apply List.map_congr_left
      intro i _
      have hpos : c.pos + 8 + name.len + 4 + 8 * i = c.pos + 12 + name.len + 8 * i := by omega
      rw [hpos]
    · simp only
      rw [htype, hp₃, hp₂, hp₁]
      have hpos : c.pos + 8 + name.len + 4 + 8 * ndim = c.pos + 12 + name.len + 8 * ndim := by
        omega
      rw [hpos]
    · simp only
      rw [hrel, hp₄, hp₃, hp₂, hp₁]
      have hpos : c.pos + 8 + name.len + 4 + 8 * ndim + 4 = c.pos + 16 + name.len + 8 * ndim := by
        omega
      rw [hpos]
    · simp only
      omega
    · simp only
      rw [hprod, one_mul]
  cases hb : tensorNbytes type dims.2 with
  | some bytes => exact ⟨hat bytes (by rw [hb]; rfl), hin₅.mono (by omega)⟩
  | none =>
    have hptr : name.ptr + name.len = c₁.pos := by
      rw [hp₁, hname]
    have hsmall : u32At file (name.ptr + name.len) < 256 := by
      rw [hptr, ← hndim]
      have hmax : maxDims = 8 := rfl
      omega
    have hend : name.ptr + name.len + 4 ≤ file.size := by
      have hle := hin₂.pos_le
      omega
    have hroom : Inside file (k + 1) c₅ := hin₅.mono (by omega)
    apply wp_seq (warnType_wp type hroom hsmall hend)
    rintro _ c₆ ⟨hp₆, hin₆⟩
    have hzero := hat 0 (by rw [hb]; rfl)
    rw [← hp₆] at hzero
    exact ⟨hzero, hin₆⟩

theorem parseDirectory_wp (n : ℕ) : ∀ {c : Cursor}, Inside file k c →
    wp (parseDirectory file n)
      (fun ts c' => Laid (TensorAt file) ts c.pos c'.pos ∧ ts.length = n ∧ Inside file k c')
      (Inside file 0) c := by
  induction n with
  | zero =>
    intro c h
    exact ⟨rfl, rfl, h⟩
  | succ n ih =>
    intro c h
    apply wp_seq (parseTensor_wp h)
    rintro t c₁ ⟨ht, hin₁⟩
    apply wp_seq (ih hin₁)
    rintro rest c₂ ⟨hrest, hlen, hin₂⟩
    exact ⟨⟨c₁.pos, ht, hrest⟩, congrArg Nat.succ hlen, hin₂⟩

theorem placeTensor_wp {dataPos : ℕ} {t : Tensor} (h : Inside file k c)
    (hd : dataPos < 2 ^ 64) :
    wp (placeTensor file dataPos t)
      (fun t' c' => c' = c ∧ t' = { t with absOffset := dataPos + t.relOffset } ∧
        PlacedAt file dataPos t') (Inside file 0) c := by
  apply wp_ite
  · intro _
    exact h.mono (Nat.zero_le _)
  intro hoff
  have hlt : dataPos + t.relOffset < 2 ^ 64 := by
    have hmax : maxU64 = 2 ^ 64 - 1 := rfl
    omega
  have hw : u64 (dataPos + t.relOffset) = dataPos + t.relOffset := Nat.mod_eq_of_lt hlt
  apply wp_ite
  · intro _
    exact h.mono (Nat.zero_le _)
  · intro hin
    rw [hw] at hin ⊢
    refine ⟨rfl, rfl, rfl, hlt, ?_⟩
    simp only
    omega

theorem placeTensors_wp {dataPos : ℕ} (ts : List Tensor) (h : Inside file k c)
    (hd : dataPos < 2 ^ 64) :
    wp (placeTensors file dataPos ts)
      (fun ts' c' => c' = c ∧
        ts' = ts.map (fun t => { t with absOffset := dataPos + t.relOffset }) ∧
        ∀ t ∈ ts', PlacedAt file dataPos t) (Inside file 0) c := by
  induction ts with
  | nil => exact ⟨rfl, rfl, by simp⟩
  | cons t ts ih =>
    apply wp_seq (placeTensor_wp h hd)
    rintro t' _ ⟨rfl, ht, hplaced⟩
    apply wp_seq ih
    rintro ts' _ ⟨rfl, hts, hall⟩
    refine ⟨rfl, ?_, ?_⟩
    · rw [ht, hts, List.map_cons]
    · intro u hu
      rcases List.mem_cons.1 hu with rfl | hu
      · exact hplaced
      · exact hall u hu

theorem Laid.map {α : Type} {part : α → ℕ → ℕ → Prop} {f : α → α}
    (hf : ∀ a p q, part a p q → part (f a) p q) :
    ∀ {as : List α} {pos stop : ℕ}, Laid part as pos stop → Laid part (as.map f) pos stop
  | [], _, _, h => h
  | a :: _, _, _, ⟨mid, ha, hrest⟩ => ⟨mid, hf a _ _ ha, Laid.map hf hrest⟩

theorem Laid.mem {α : Type} {part : α → ℕ → ℕ → Prop} :
    ∀ {as : List α} {pos stop : ℕ}, Laid part as pos stop → ∀ a ∈ as, ∃ p q, part a p q
  | _ :: _, _, _, ⟨mid, ha, hrest⟩, b, hb => by
    rcases List.mem_cons.1 hb with rfl | hb
    · exact ⟨_, mid, ha⟩
    · exact hrest.mem b hb

theorem ceil_of_dvd {pos a : ℕ} (ha : 0 < a) (hr : pos % a = 0) : pos ⌈/⌉ a * a = pos := by
  have hdiv := Nat.div_add_mod' pos a
  have hsum : pos + a - 1 = a - 1 + pos / a * a := by omega
  rw [Nat.ceilDiv_eq_add_pred_div, hsum, Nat.add_mul_div_right _ _ ha,
    Nat.div_eq_of_lt (by omega), Nat.zero_add]
  omega

theorem ceil_of_not_dvd {pos a : ℕ} (ha : 0 < a) (hr : pos % a ≠ 0) :
    pos ⌈/⌉ a * a = pos + a - pos % a := by
  have hdiv := Nat.div_add_mod' pos a
  have hmod := Nat.mod_lt pos ha
  have hsum : pos + a - 1 = pos % a - 1 + (pos / a + 1) * a := by
    rw [Nat.add_mul, Nat.one_mul]
    omega
  rw [Nat.ceilDiv_eq_add_pred_div, hsum, Nat.add_mul_div_right _ _ ha,
    Nat.div_eq_of_lt (by omega), Nat.zero_add, Nat.add_mul, Nat.one_mul]
  omega

/-- A position inside the file is rounded up without a wrap. -/
theorem alignUp_eq {pos alignment : ℕ} (hp : pos ≤ file.size)
    (ha : alignment ≠ 0 ∧ alignment < 2 ^ 32) :
    alignUp pos alignment = pos ⌈/⌉ alignment * alignment ∧ alignUp pos alignment < 2 ^ 64 := by
  have hs := size_lt file
  have hpos := Nat.pos_of_ne_zero ha.1
  simp only [alignUp]
  by_cases hr : pos % alignment = 0
  · rw [if_pos hr, ceil_of_dvd hpos hr]
    exact ⟨rfl, by omega⟩
  · have hlt : pos + alignment - pos % alignment < 2 ^ 64 := by omega
    rw [if_neg hr, ceil_of_not_dvd hpos hr, u64, Nat.mod_eq_of_lt hlt]
    exact ⟨rfl, hlt⟩

/-- The two loops of `parse_tensors`. -/
theorem parseTensors_wp (calloc : ℕ → ℕ → Bool) {n alignment : ℕ} (h : Inside file k c)
    (ha : alignment ≠ 0 ∧ alignment < 2 ^ 32) :
    wp (parseTensors file calloc n alignment)
      (fun r c' => Laid (TensorAt file) r.2 c.pos c'.pos ∧ r.2.length = n ∧
        r.1 = c'.pos ⌈/⌉ alignment * alignment ∧ (∀ t ∈ r.2, PlacedAt file r.1 t) ∧
        Inside file k c') (Inside file 0) c := by
  apply wp_ite
  · intro _
    apply wp_seq (parseDirectory_wp n h)
    rintro ts c₁ ⟨hts, hlen, hin₁⟩
    rw [wp_bind, wp_get]
    obtain ⟨hround, hlt⟩ := alignUp_eq hin₁.pos_le ha
    apply wp_seq (placeTensors_wp ts hin₁ hlt)
    rintro ts' _ ⟨rfl, hplace, hall⟩
    refine ⟨?_, ?_, hround, hall, hin₁⟩
    · rw [hplace]
      apply hts.map
      intro t p q ht
      exact ⟨ht.name, ht.ndim, ht.ndim_pos, ht.ndim_le, ht.dim, ht.type, ht.relOffset,
        ht.stop_eq, ht.elements, ht.elements_lt, ht.bytes⟩
    · rw [hplace, List.length_map]
      exact hlen
  · intro _
    exact h.mono (Nat.zero_le _)

end Tensors

theorem modelOpen_wp (calloc : ℕ → ℕ → Bool) (file : MappedFile) :
    wp (modelOpen calloc file) (fun m c => Accepted file m ∧ Inside file 0 c) (Inside file 0)
      startCursor := by
  have hstart : Inside file 0 startCursor := ⟨Nat.zero_le _, by simp [startCursor], le_rfl⟩
  apply wp_ite
  · intro _
    exact hstart
  intro hsize
  apply wp_seq ((wp_orDie _ _ _ _).mpr (cursorU32_wp hstart))
  rintro magic c₁ ⟨hmagic, hp₁, hin₁⟩
  apply wp_ite
  · intro _
    exact hin₁.mono (Nat.zero_le _)
  intro hm
  apply wp_seq ((wp_orDie _ _ _ _).mpr (cursorU32_wp hin₁))
  rintro version c₂ ⟨hversion, hp₂, hin₂⟩
  apply wp_seq ((wp_orDie _ _ _ _).mpr (cursorU64_wp hin₂))
  rintro nTensors c₃ ⟨hnTensors, hp₃, hin₃⟩
  apply wp_seq ((wp_orDie _ _ _ _).mpr (cursorU64_wp hin₃))
  rintro nKv c₄ ⟨hnKv, hp₄, hin₄⟩
  apply wp_ite
  · intro _
    exact hin₄.mono (Nat.zero_le _)
  intro hv
  have hmeta : wp (parseMetadata file calloc nKv)
      (fun r c' => Laid (KvAt file) r.1 c₄.pos c'.pos ∧ r.1.length = nKv ∧
        (r.2 ≠ 0 ∧ r.2 < 2 ^ 32) ∧ Inside file 0 c') (Inside file 0) c₄ := by
    apply wp_ite
    · intro _
      exact parseKvs_wp nKv (hin₄.mono (Nat.zero_le _)) (by norm_num)
    · intro _
      exact hin₄.mono (Nat.zero_le _)
  apply wp_seq hmeta
  rintro ⟨kvs, alignment⟩ c₅ ⟨hkvs, hkvLen, ha, hin₅⟩
  apply wp_seq (parseTensors_wp calloc hin₅ ha)
  rintro ⟨dataPos, ts⟩ c₆ ⟨hts, htsLen, hround, hall, hin₆⟩
  have hp : c₁.pos = 4 ∧ c₂.pos = 8 ∧ c₃.pos = 16 ∧ c₄.pos = 24 := by
    have hzero : startCursor.pos = 0 := rfl
    omega
  refine ⟨⟨not_lt.1 hsize, ?_, ⟨?_, not_not.1 hv⟩, ?_, ?_, ha.1, ?_, hall⟩, hin₆⟩
  · rw [← not_not.1 hm, hmagic]
    rfl
  · rw [hversion, hp.1]
  · rw [htsLen, hnTensors, hp.2.1]
  · rw [hkvLen, hnKv, hp.2.2.1]
  · rw [hp.2.2.2] at hkvs
    exact ⟨c₅.pos, c₆.pos, hkvs, hts, hin₆.pos_le, hround⟩

end Ds4.Gguf
