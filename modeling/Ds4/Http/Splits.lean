import Ds4.Http.Request

/-! Whether a request depends on how the client's bytes are split. The buffers at which the
header loop can stop are found, and with them the streams of which every split is read alike. -/
namespace Ds4.Http

section EndsAt
variable {pat s : Bytes} {e i k : ℕ}

/-- An occurrence of `pat` ends behind the first `e` bytes. -/
def EndsAt (pat s : Bytes) (e : ℕ) : Prop := e ≤ s.length ∧ pat <:+ s.take e

theorem endsAt_iff : EndsAt pat s e ↔ ∃ i, e = i + pat.length ∧ i ≤ s.length ∧
    pat <+: s.drop i := by
  constructor
  · rintro ⟨he, x, hx⟩
    have hlen := congrArg List.length hx
    rw [List.length_append, List.length_take_of_le he] at hlen
    refine ⟨x.length, hlen.symm, by omega, ?_⟩
    rw [← List.take_append_drop e s, ← hx, List.append_assoc, List.drop_left]
    exact List.prefix_append _ _
  · rintro ⟨i, rfl, hi, t, ht⟩
    have hlen := congrArg List.length ht
    rw [List.length_append, List.length_drop] at hlen
    refine ⟨by omega, s.take i, ?_⟩
    rw [List.take_add, ← ht, List.take_left]

theorem endsAt_take : EndsAt pat (s.take k) e ↔ e ≤ k ∧ EndsAt pat s e := by
  unfold EndsAt
  rw [List.length_take, le_min_iff, and_assoc]
  refine and_congr_right fun hk => and_congr_right fun _ => ?_
  rw [List.take_take, min_eq_left hk]

theorem find_some_iff : Search.find pat s = some i ↔
    EndsAt pat s (i + pat.length) ∧ ∀ e < i + pat.length, ¬ EndsAt pat s e := by
  rw [Search.find_eq_some_iff]
  constructor
  · rintro ⟨⟨hpat, hi⟩, hfirst⟩
    refine ⟨endsAt_iff.mpr ⟨i, rfl, hi, hpat⟩, fun e he hends => ?_⟩
    obtain ⟨j, rfl, -, hj⟩ := endsAt_iff.mp hends
    exact hfirst j (by omega) hj
  · rintro ⟨hends, hfirst⟩
    obtain ⟨j, hj, hle, hpat⟩ := endsAt_iff.mp hends
    obtain rfl : i = j := by omega
    refine ⟨⟨hpat, hle⟩, fun j hj hpat' => hfirst (j + pat.length) (by omega) ?_⟩
    exact endsAt_iff.mpr ⟨j, rfl, by omega, hpat'⟩

theorem find_none_iff : Search.find pat s = none ↔ ∀ e, ¬ EndsAt pat s e := by
  rw [Search.find_eq_none_iff]
  constructor
  · intro h e hends
    obtain ⟨j, -, hle, hpat⟩ := endsAt_iff.mp hends
    exact h j hle hpat
  · intro h j hle hpat
    exact h _ (endsAt_iff.mpr ⟨j, rfl, hle, hpat⟩)

end EndsAt

section HeaderEnd
variable {s : Bytes} {e k : ℕ}

theorem headerEnd_some (h : headerEnd s = some e) :
    (EndsAt [13, 10, 13, 10] s e ∧ ∀ k < e, ¬ EndsAt [13, 10, 13, 10] s k) ∨
      ((∀ k, ¬ EndsAt [13, 10, 13, 10] s k) ∧ EndsAt [10, 10] s e ∧
        ∀ k < e, ¬ EndsAt [10, 10] s k) := by
  unfold headerEnd at h
  cases hcr : Search.find [13, 10, 13, 10] s with
  | some i =>
    rw [hcr] at h
    obtain rfl := Option.some.inj h
    exact Or.inl (find_some_iff.mp hcr)
  | none =>
    rw [hcr] at h
    obtain ⟨i, hi, rfl⟩ := Option.map_eq_some_iff.mp h
    exact Or.inr ⟨find_none_iff.mp hcr, find_some_iff.mp hi⟩

theorem headerEnd_none : headerEnd s = none ↔
    ∀ e, ¬ EndsAt [13, 10, 13, 10] s e ∧ ¬ EndsAt [10, 10] s e := by
  rw [forall_and, ← find_none_iff, ← find_none_iff]
  unfold headerEnd
  cases Search.find [13, 10, 13, 10] s with
  | some i => simp
  | none => simp

/-- The first CRLF pair is found whatever stands before it or behind it. -/
theorem headerEnd_crlf (h : EndsAt [13, 10, 13, 10] s e)
    (hfirst : ∀ k < e, ¬ EndsAt [13, 10, 13, 10] s k) : headerEnd s = some e := by
  obtain ⟨i, rfl, -, -⟩ := endsAt_iff.mp h
  unfold headerEnd
  rw [find_some_iff.mpr ⟨h, hfirst⟩]
  rfl

theorem headerEnd_lf (hcr : ∀ k, ¬ EndsAt [13, 10, 13, 10] s k) (h : EndsAt [10, 10] s e)
    (hfirst : ∀ k < e, ¬ EndsAt [10, 10] s k) : headerEnd s = some e := by
  obtain ⟨i, rfl, -, -⟩ := endsAt_iff.mp h
  unfold headerEnd
  rw [find_none_iff.mpr hcr, find_some_iff.mpr ⟨h, hfirst⟩]
  rfl

theorem headerEnd_take_mono {j : ℕ} (h : headerEnd (s.take k) = none) (hjk : j ≤ k) :
    headerEnd (s.take j) = none := by
  rw [headerEnd_none] at h ⊢
  intro e
  constructor
  · intro hends
    obtain ⟨hle, hends⟩ := endsAt_take.mp hends
    exact (h e).1 (endsAt_take.mpr ⟨hle.trans hjk, hends⟩)
  · intro hends
    obtain ⟨hle, hends⟩ := endsAt_take.mp hends
    exact (h e).2 (endsAt_take.mpr ⟨hle.trans hjk, hends⟩)

end HeaderEnd

section Stops
variable {s : Bytes} {k : ℕ}

/-- The header loop can stop with `k` bytes in the buffer: it had `j` of them before, and no
header's end among them. -/
def CanStop (s : Bytes) (k : ℕ) : Prop :=
  k ≤ s.length ∧ headerEnd (s.take k) ≠ none ∧
    ∃ j < k, j < maxHeader ∧ k ≤ j + 4096 ∧ headerEnd (s.take j) = none

/-- What is read from a stream of which `k` bytes are in the buffer when the header's end is
found. -/
def outcome (s : Bytes) (k : ℕ) : Option (Bytes × HttpRequest) :=
  match headerEnd (s.take k), methodAndPath s with
  | some hend, some (method, path) =>
      let clen := contentLength (s.take k) hend
      if clen < 0 ∨ maxBody < clen.toNat ∨ s.length < hend + clen.toNat then none
      else some (s.take hend, { method, path, body := (s.drop hend).take clen.toNat })
  | _, _ => none

/-- The body loop gets the bytes it waits for where the client sends them. -/
theorem readBody_take (fd : Socket) (b : Bytes) (total : ℕ) :
    (readBody fd b total).map (·.take total) =
      if total ≤ (b ++ fd.bytes).length then some ((b ++ fd.bytes).take total) else none := by
  fun_induction readBody fd b total with
  | case1 fd b hlt fd' hrecv ih => rw [ih, (recv_interrupted hrecv).1]
  | case2 fd b hlt fd' hrecv =>
    obtain ⟨-, -, hempty, -⟩ := recv_got (by norm_num) hrecv
    rw [hempty rfl, List.append_nil, if_neg (by omega)]
    rfl
  | case3 fd b hlt c tmp fd' hrecv ih =>
    obtain ⟨hbytes, -⟩ := recv_got (by norm_num) hrecv
    rw [ih, hbytes, List.append_assoc]
  | case4 fd b hlt =>
    have hle : total ≤ b.length := not_lt.mp hlt
    rw [if_pos (by rw [List.length_append]; omega), List.take_append_of_le_length hle]
    rfl

/-- Where the header loop stops, or why it gives up. -/
theorem readHeader_spec (fd : Socket) (b : Bytes) (hb : b ++ fd.bytes = s)
    (hnone : headerEnd b = none) :
    (∃ k hend fd', readHeader fd b = some (s.take k, hend, fd') ∧ CanStop s k ∧
      headerEnd (s.take k) = some hend ∧ fd'.bytes = s.drop k) ∨
    (readHeader fd b = none ∧ (headerEnd s = none ∨
      maxHeader ≤ s.length ∧ headerEnd (s.take maxHeader) = none)) := by
  fun_induction readHeader fd b with
  | case1 fd b hlt fd' hrecv ih => exact ih ((recv_interrupted hrecv).1 ▸ hb) hnone
  | case2 fd b hlt fd' hrecv =>
    obtain ⟨-, -, hempty, -⟩ := recv_got (by norm_num) hrecv
    refine Or.inr ⟨rfl, Or.inl ?_⟩
    rw [← hb, hempty rfl, List.append_nil, hnone]
  | case3 fd b hlt c tmp fd' hrecv hend hfound =>
    obtain ⟨hbytes, hcap, -, -⟩ := recv_got (by norm_num) hrecv
    have htake : s.take (b ++ c :: tmp).length = b ++ c :: tmp := by
      rw [← hb, hbytes, ← List.append_assoc, List.take_left]
    have hdrop : s.drop (b ++ c :: tmp).length = fd'.bytes := by
      rw [← hb, hbytes, ← List.append_assoc, List.drop_left]
    refine Or.inl ⟨(b ++ c :: tmp).length, hend, fd', by rw [htake], ?_, by rwa [htake], hdrop.symm⟩
    refine ⟨?_, by rw [htake, hfound]; exact Option.some_ne_none _, b.length, ?_, hlt, ?_, ?_⟩
    · rw [← hb, hbytes, ← List.append_assoc]
      exact (List.prefix_append _ _).length_le
    · rw [List.length_append, List.length_cons]
      omega
    · rw [List.length_append]
      omega
    · rw [← hb, List.take_left, hnone]
  | case4 fd b hlt c tmp fd' hrecv hfound ih =>
    obtain ⟨hbytes, -⟩ := recv_got (by norm_num) hrecv
    refine ih ?_ hfound
    rw [← hb, hbytes, List.append_assoc]
  | case5 fd b hlt =>
    have hle : maxHeader ≤ b.length := not_lt.mp hlt
    refine Or.inr ⟨rfl, Or.inr ⟨?_, ?_⟩⟩
    · rw [← hb, List.length_append]
      omega
    · apply headerEnd_take_mono (k := b.length) _ hle
      rw [← hb, List.take_left, hnone]

/-- The request line is in every buffer that holds the header's end. -/
theorem methodAndPath_take (h : headerEnd (s.take k) ≠ none) :
    methodAndPath (s.take k) = methodAndPath s := by
  have hmem : (10 : UInt8) ∈ s.take k := by
    by_contra hnot
    refine h (headerEnd_none.mpr fun e => ⟨fun hends => hnot ?_, fun hends => hnot ?_⟩)
    all_goals exact List.mem_of_mem_take (hends.2.subset (by simp))
  have hline : (s.take k).takeWhile (· != 10) = s.takeWhile (· != 10) := by
    conv_rhs => rw [← List.take_append_drop k s, List.takeWhile_append]
    rw [if_neg]
    intro hlen
    have hself := (List.takeWhile_prefix _).eq_of_length hlen
    simpa using List.takeWhile_eq_self_iff.mp hself 10 hmem
  unfold methodAndPath requestLine
  rw [hline]

/-- Behind the header's end only the body loop reads on. -/
theorem readHttpRequest_outcome {fd fd' : Socket} {hend : ℕ}
    (hread : readHeader fd [] = some (s.take k, hend, fd')) (hk : headerEnd (s.take k) = some hend)
    (hbytes : fd'.bytes = s.drop k) : readHttpRequest fd = outcome s k := by
  unfold readHttpRequest outcome
  rw [hread, hk]
  dsimp only
  rw [methodAndPath_take (by rw [hk]; exact Option.some_ne_none _)]
  cases methodAndPath s with
  | none => rfl
  | some line =>
    dsimp only
    generalize contentLength (s.take k) hend = clen
    have hbody := readBody_take fd' (s.take k) (hend + clen.toNat)
    rw [hbytes, List.take_append_drop] at hbody
    by_cases hbad : clen < 0 ∨ maxBody < clen.toNat
    · rw [if_pos hbad, if_pos (by tauto)]
    · rw [if_neg hbad]
      by_cases hlen : hend + clen.toNat ≤ s.length
      · rw [if_pos hlen] at hbody
        obtain ⟨b, hb, htake⟩ := Option.map_eq_some_iff.mp hbody
        have hhead : b.take hend = s.take hend := by
          have h := congrArg (List.take hend) htake
          rwa [List.take_take, List.take_take, min_eq_left (Nat.le_add_right _ _)] at h
        have hrest : (b.drop hend).take clen.toNat = (s.drop hend).take clen.toNat := by
          have h := congrArg (List.drop hend) htake
          rwa [List.drop_take, List.drop_take, Nat.add_sub_cancel_left] at h
        rw [hb, if_neg (by rw [not_or] at hbad; omega)]
        dsimp only
        rw [hhead, hrest]
      · rw [if_neg hlen, Option.map_eq_none_iff] at hbody
        rw [hbody, if_pos (by omega)]

/-- Every reading ends as the stream's outcome at a possible stop, or finds no header. -/
theorem readHttpRequest_cases (s : Bytes) (calls : List (Option ℕ)) :
    (∃ k, CanStop s k ∧ readHttpRequest ⟨s, calls⟩ = outcome s k) ∨
      (readHttpRequest ⟨s, calls⟩ = none ∧ (headerEnd s = none ∨
        maxHeader ≤ s.length ∧ headerEnd (s.take maxHeader) = none)) := by
  rcases readHeader_spec ⟨s, calls⟩ [] rfl rfl with
    ⟨k, hend, fd', hread, hstop, hk, hbytes⟩ | ⟨hread, hwhy⟩
  · exact Or.inl ⟨k, hstop, readHttpRequest_outcome hread hk hbytes⟩
  · refine Or.inr ⟨?_, hwhy⟩
    unfold readHttpRequest
    rw [hread]

theorem readHeader_got {fd fd' : Socket} {b tmp : Bytes} {c : UInt8} (hlen : b.length < maxHeader)
    (hrecv : fd.recv 4096 = (some (c :: tmp), fd')) :
    readHeader fd b = match headerEnd (b ++ c :: tmp) with
      | some hend => some (b ++ c :: tmp, hend, fd')
      | none => readHeader fd' (b ++ c :: tmp) := by
  rw [readHeader, if_pos hlen]
  split
  · next heq => cases heq.symm.trans hrecv
  · next heq => cases heq.symm.trans hrecv
  · next heq =>
    obtain ⟨htmp, rfl⟩ := Prod.mk.inj (heq.symm.trans hrecv)
    obtain ⟨rfl, rfl⟩ := List.cons.inj (Option.some.inj htmp)
    rfl

/-- A header loop that is given `n` bytes, of which it can hold them. -/
theorem readHeader_piece {j n : ℕ} (calls : List (Option ℕ)) (hj : j < maxHeader)
    (hn : n < 4096) (hlen : j + (n + 1) ≤ s.length) :
    readHeader ⟨s.drop j, some n :: calls⟩ (s.take j) =
      match headerEnd (s.take (j + (n + 1))) with
      | some hend => some (s.take (j + (n + 1)), hend, ⟨s.drop (j + (n + 1)), calls⟩)
      | none => readHeader ⟨s.drop (j + (n + 1)), calls⟩ (s.take (j + (n + 1))) := by
  have hmin : min (n + 1) 4096 = n + 1 := min_eq_left hn
  cases htmp : (s.drop j).take (n + 1) with
  | nil =>
    have hzero := congrArg List.length htmp
    rw [List.length_take, List.length_drop, List.length_nil] at hzero
    omega
  | cons c tmp =>
    have hrecv : (⟨s.drop j, some n :: calls⟩ : Socket).recv 4096 =
        (some (c :: tmp), ⟨s.drop (j + (n + 1)), calls⟩) := by
      unfold Socket.recv
      dsimp only
      rw [hmin, htmp, List.drop_drop]
    have happ : s.take j ++ c :: tmp = s.take (j + (n + 1)) := by rw [List.take_add, htmp]
    have hjlen : (s.take j).length < maxHeader := by
      rw [List.length_take_of_le (by omega)]
      exact hj
    rw [readHeader_got hjlen hrecv, happ]

/-- A header loop that is given one byte after the other stands behind the first `m` bytes. -/
theorem readHeader_dribble (calls : List (Option ℕ)) {m j : ℕ} (hm : j + m ≤ maxHeader)
    (hlen : j + m ≤ s.length) (hnone : headerEnd (s.take (j + m)) = none) :
    readHeader ⟨s.drop j, List.replicate m (some 0) ++ calls⟩ (s.take j) =
      readHeader ⟨s.drop (j + m), calls⟩ (s.take (j + m)) := by
  induction m generalizing j with
  | zero => rfl
  | succ m ih =>
    have hstep : j + (m + 1) = j + (0 + 1) + m := by omega
    rw [List.replicate_succ, List.cons_append, readHeader_piece _ (by omega) (by norm_num)
      (by omega), headerEnd_take_mono hnone (by omega)]
    rw [hstep] at hm hlen hnone ⊢
    exact ih hm hlen hnone

theorem readHeader_start (calls : List (Option ℕ)) {m : ℕ} (hm : m ≤ maxHeader)
    (hlen : m ≤ s.length) (hnone : headerEnd (s.take m) = none) :
    readHeader ⟨s, List.replicate m (some 0) ++ calls⟩ [] =
      readHeader ⟨s.drop m, calls⟩ (s.take m) := by
  have h := readHeader_dribble (s := s) (j := 0) (m := m) calls (by omega) (by omega)
    (by rwa [Nat.zero_add])
  rwa [Nat.zero_add, List.drop_zero, List.take_zero] at h

/-- Every possible stop is reached by some split. -/
theorem exists_stop (h : CanStop s k) : ∃ calls, readHttpRequest ⟨s, calls⟩ = outcome s k := by
  obtain ⟨hk, hfound, j, hjk, hj, hcap, hnone⟩ := h
  obtain ⟨n, rfl⟩ : ∃ n, k = j + (n + 1) := ⟨k - j - 1, by omega⟩
  obtain ⟨hend, hsome⟩ := Option.ne_none_iff_exists'.mp hfound
  refine ⟨List.replicate j (some 0) ++ [some n], ?_⟩
  have hread : readHeader ⟨s, List.replicate j (some 0) ++ [some n]⟩ [] =
      some (s.take (j + (n + 1)), hend, ⟨s.drop (j + (n + 1)), []⟩) := by
    rw [readHeader_start _ hj.le (by omega) hnone, readHeader_piece [] hj (by omega) hk, hsome]
  exact readHttpRequest_outcome hread hsome rfl

/-- A header behind the limit is missed by a split that reaches the limit. -/
theorem exists_give_up (hlen : maxHeader ≤ s.length)
    (hnone : headerEnd (s.take maxHeader) = none) :
    ∃ calls, readHttpRequest ⟨s, calls⟩ = none := by
  -- the limit stays a name, so that no step writes out as many pieces as it counts
  obtain ⟨m, hm⟩ : ∃ m, m = maxHeader := ⟨maxHeader, rfl⟩
  rw [← hm] at hlen hnone
  refine ⟨List.replicate m (some 0) ++ [], ?_⟩
  unfold readHttpRequest
  rw [readHeader_start [] hm.le hlen hnone, readHeader]
  rw [if_neg (by rw [List.length_take_of_le hlen, hm]; exact lt_irrefl _)]

end Stops

end Ds4.Http
