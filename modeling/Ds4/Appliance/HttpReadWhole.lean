import Ds4.Appliance.HttpRead
import Ds4.Http.Splits

/-! When a request is read whole, however its bytes are split. -/
namespace Ds4.Appliance
open Ds4.Http (strtol scanWord stripCr endsAt_take find_some_iff)

/-! What a request announces, by the lines of its header. -/

/-- A number of a header field: digits alone, between blanks. -/
def fieldNumber (value : Bytes) : Option ℕ :=
  let isBlank := fun c : UInt8 => c == 32 || c == 9
  let digits := ((value.dropWhile isBlank).reverse.dropWhile isBlank).reverse
  if digits ≠ [] ∧ digits.all isDigit = true then
    some (digits.foldl (fun n c => n * 10 + (c.toNat - 48)) 0)
  else none

/-- The value of a field line, if it is a `Content-Length`. Names are compared without case. -/
def lengthField (line : Bytes) : Option (Option ℕ) :=
  if (line.take 15).map UInt8.toAsciiLower = lit "content-length:" then
    some (fieldNumber (line.drop 15))
  else none

/-- The length of the body that a header announces: none is a body of no bytes, and a number that
cannot be read or differs from another one is no length. -/
def announcedLength (header : Bytes) : Option ℕ :=
  match ((((header.splitOn 10).map stripCr).drop 1).filterMap lengthField) with
  | [] => some 0
  | n :: ns => if ns.all (· = n) then n else none

/-- The first empty line of a stream ends the header. -/
def HeaderEnds (s : Bytes) (e : ℕ) : Prop := ∃ i, Search.find crlfPair s = some i ∧ e = i + 4

/-- The request is that of the stream: its header's first line, and its body with all bytes that
the header announces. -/
structure WholeRequest (s : Bytes) (r : ParsedRequest) (e n : ℕ) : Prop where
  header : HeaderEnds s e
  announced : announcedLength (s.take e) = some n
  there : e + n ≤ s.length
  line : methodAndPath (s.take e) = some (r.method, r.path)
  body : r.body = (s.drop e).take n

/-- Every split of a stream has the same outcome, and what is returned is the whole request. -/
structure ReadsWhole (s : Bytes) : Prop where
  same : ∀ calls calls', httpReadRequest (split s calls) = httpReadRequest (split s calls')
  whole : ∀ calls r, httpReadRequest (split s calls) = some r → ∃ e n, WholeRequest s r e n

/-- At no stop there are a method and a path. -/
def NeverAccepted (s : Bytes) : Prop :=
  ∀ k, Stops s k → methodAndPath (cstr (s.take k)) = none

/-- A stream that is one request: the announced bytes end it (or the buffer, or a NUL byte stands
behind them), and the first `Content-Length:` of the header is followed by their number, up to 4096
(or by one that what is there behind a NUL byte makes up for). -/
structure OneRequest (s : Bytes) (e n : ℕ) : Prop where
  header : HeaderEnds s e
  announced : announcedLength (s.take e) = some n
  fits : e + n ≤ readable s
  noNul : 0 ∉ s.take (e + n)
  ends : e + n = readable s ∨ s[e + n]? = some 0
  number : n ≤ httpContentLength (s.take e) ∧ e + httpContentLength (s.take e) ≤ readable s
  line : (methodAndPath (s.take e)).isSome = true

section Extend
variable {s t x pat : Bytes} {c : UInt8} {i k n : ℕ}

/-- An occurrence that a prefix holds whole is the first one of both or of neither. -/
theorem find_take : Search.find pat (s.take k) = some i ↔
    Search.find pat s = some i ∧ i + pat.length ≤ k := by
  rw [find_some_iff, find_some_iff]
  constructor
  · rintro ⟨hends, hfirst⟩
    obtain ⟨hle, hends⟩ := endsAt_take.1 hends
    exact ⟨⟨hends, fun e he h => hfirst e he (endsAt_take.2 ⟨he.le.trans hle, h⟩)⟩, hle⟩
  · rintro ⟨⟨hends, hfirst⟩, hle⟩
    exact ⟨endsAt_take.2 ⟨hle, hends⟩, fun e he h => hfirst e he (endsAt_take.1 h).2⟩

theorem find_append (h : Search.find pat s = some i) : Search.find pat (s ++ x) = some i := by
  have hpre : Search.find pat ((s ++ x).take s.length) = some i := by rwa [List.take_left]
  exact (find_take.1 hpre).1

theorem getLast?_suffix (hsuffix : t <:+ s) (hne : t ≠ []) (hlast : s.getLast? = some c) :
    t.getLast? = some c := by
  obtain ⟨y, rfl⟩ := hsuffix
  rwa [List.getLast?_append_of_ne_nil _ hne] at hlast

theorem mem_of_suffix (hsuffix : t <:+ s) (hne : t ≠ []) (hlast : s.getLast? = some c) : c ∈ t :=
  List.mem_of_getLast? (getLast?_suffix hsuffix hne hlast)

/-- A run that the text ends is the same in a longer text. -/
theorem takeWhile_append_stop {p : UInt8 → Bool} (hc : c ∈ s) (hp : p c = false) :
    (s ++ x).takeWhile p = s.takeWhile p := by
  rw [List.takeWhile_append, if_neg]
  intro hlen
  have hself := (List.takeWhile_prefix p).eq_of_length hlen
  have := List.takeWhile_eq_self_iff.1 hself c hc
  rw [hp] at this
  cases this

theorem dropWhile_append_stop {p : UInt8 → Bool} (hne : s.dropWhile p ≠ []) :
    (s ++ x).dropWhile p = s.dropWhile p ++ x := by
  rw [List.dropWhile_append, if_neg]
  rwa [List.isEmpty_iff]

/-- A number that ends in front of the text's end is the same in a longer text. -/
theorem strtol_append (hlast : s.getLast? = some c) (hc : isDigit c = false) (hne : strtol s ≠ 0) :
    strtol (s ++ x) = strtol s := by
  have hstart : s.dropWhile isSpace ≠ [] := by
    intro hnil
    apply hne
    unfold strtol
    rw [hnil]
    rfl
  obtain ⟨d, rest, hd⟩ := List.exists_cons_of_ne_nil hstart
  have hsuffix : s.dropWhile isSpace <:+ s := List.dropWhile_suffix _
  -- the digits, behind the sign
  have hdigits : ∀ u : Bytes, u <:+ s.dropWhile isSpace → u ≠ [] →
      (u ++ x).takeWhile isDigit = u.takeWhile isDigit := fun u hu hune =>
    takeWhile_append_stop (mem_of_suffix (hu.trans hsuffix) hune hlast) hc
  unfold strtol at hne ⊢
  rw [dropWhile_append_stop hstart]
  rw [hd] at hne hdigits ⊢
  dsimp only [List.cons_append, List.head?_cons] at hne ⊢
  by_cases hsign : ((some d == some 45) || (some d == some 43)) = true
  · have hrest : rest ≠ [] := by
      rintro rfl
      apply hne
      simp only [hsign, if_true, List.drop_succ_cons, List.drop_zero, List.takeWhile_nil,
        List.foldl_nil]
      split_ifs <;> norm_num
    have hsame := hdigits rest (List.suffix_cons d rest) hrest
    simp only [hsign, if_true, List.drop_succ_cons, List.drop_zero, hsame]
  · have hsame := hdigits (d :: rest) (List.suffix_refl _) (List.cons_ne_nil _ _)
    rw [List.cons_append] at hsame
    simp only [hsign, Bool.false_eq_true, if_false, hsame]

/-- A word that ends in front of the text's end is the same in a longer text. -/
theorem scanWord_append {w rest : Bytes} (hlast : s.getLast? = some c) (hc : isSpace c = true)
    (h : scanWord n s = some (w, rest)) :
    scanWord n (s ++ x) = some (w, rest ++ x) ∧ rest.getLast? = some c := by
  unfold scanWord at h ⊢
  dsimp only at h ⊢
  split_ifs at h with hempty
  obtain ⟨rfl, rfl⟩ := Prod.mk.inj (Option.some.inj h)
  have hstart : s.dropWhile isSpace ≠ [] := by
    intro hnil
    rw [hnil] at hempty
    exact hempty List.take_nil
  have hsuffix : s.dropWhile isSpace <:+ s := List.dropWhile_suffix _
  have hmem := mem_of_suffix hsuffix hstart hlast
  have hstop : (!isSpace c) = false := by rw [hc]; rfl
  rw [dropWhile_append_stop hstart, takeWhile_append_stop hmem hstop, if_neg hempty]
  generalize s.dropWhile isSpace = u at *
  obtain ⟨v, hv⟩ : ∃ v, v = (u.takeWhile fun c => !isSpace c).take n := ⟨_, rfl⟩
  have hle : v.length ≤ u.length := by
    rw [hv]
    exact (List.length_take_le' _ _).trans (List.takeWhile_prefix _).length_le
  have hlt : v.length < u.length := by
    refine lt_of_le_of_ne hle fun heq => ?_
    have hpre : v <+: u := by
      rw [hv]
      exact (List.take_prefix _ _).trans (List.takeWhile_prefix _)
    have hall : c ∈ u.takeWhile fun c => !isSpace c := by
      have hin : c ∈ v := (hpre.eq_of_length heq).symm ▸ hmem
      rw [hv] at hin
      exact List.mem_of_mem_take hin
    have := List.mem_takeWhile_imp hall
    rw [hstop] at this
    cases this
  rw [← hv, List.drop_append_of_le_length hle]
  refine ⟨rfl, getLast?_suffix ((List.drop_suffix _ _).trans hsuffix) ?_ hlast⟩
  rw [Ne, List.drop_eq_nil_iff]
  omega

theorem methodAndPath_append {r : Bytes × Bytes} (hlast : s.getLast? = some c)
    (hc : isSpace c = true) (h : methodAndPath s = some r) : methodAndPath (s ++ x) = some r := by
  unfold methodAndPath at h ⊢
  cases hfirst : scanWord 15 s with
  | none =>
    rw [hfirst] at h
    cases h
  | some first =>
    obtain ⟨method, rest⟩ := first
    obtain ⟨hfirst', hlast'⟩ := scanWord_append (x := x) hlast hc hfirst
    rw [hfirst] at h
    rw [hfirst']
    dsimp only at h ⊢
    cases hsecond : scanWord 255 rest with
    | none =>
      rw [hsecond] at h
      cases h
    | some second =>
      obtain ⟨path, rest'⟩ := second
      rw [hsecond] at h
      rw [(scanWord_append hlast' hc hsecond).1]
      exact h

/-- A length that a header gives is read from every longer text. -/
theorem httpContentLength_append (hlast : s.getLast? = some 10) (hne : httpContentLength s ≠ 0) :
    httpContentLength (s ++ x) = httpContentLength s := by
  unfold httpContentLength at hne ⊢
  cases hfind : Search.find (lit "Content-Length:") s with
  | none =>
    rw [hfind] at hne
    exact absurd rfl hne
  | some i =>
    rw [hfind] at hne
    rw [find_append hfind]
    dsimp only at hne ⊢
    have hle : i + 15 ≤ s.length := by
      obtain ⟨hpre, hi⟩ := Search.find_some hfind
      have hlen := hpre.length_le
      have hpat : (lit "Content-Length:").length = 15 := by decide
      rw [hpat, List.length_drop] at hlen
      omega
    rw [List.drop_append_of_le_length hle]
    obtain ⟨u, hu⟩ : ∃ u, u = s.drop (i + 15) := ⟨_, rfl⟩
    rw [← hu] at hne ⊢
    have hval : strtol (u.dropWhile fun c => c == 32 || c == 9) ≠ 0 := by
      intro hzero
      rw [hzero] at hne
      exact hne rfl
    have hstart : u.dropWhile (fun c => c == 32 || c == 9) ≠ [] := by
      intro hnil
      rw [hnil] at hval
      exact hval rfl
    have hsuffix : u.dropWhile (fun c => c == 32 || c == 9) <:+ s :=
      (List.dropWhile_suffix _).trans (hu ▸ List.drop_suffix _ _)
    rw [dropWhile_append_stop hstart,
      strtol_append (getLast?_suffix hsuffix hstart hlast) (by decide) hval]

end Extend

/-! The text of the buffer at a stop. -/
section Text
variable {s : Bytes} {e i j k n : ℕ}

theorem cstr_prefix (s : Bytes) : cstr s <+: s := List.takeWhile_prefix _

/-- The text in a buffer's bytes is a prefix of the stream. -/
theorem cstr_take (s : Bytes) (k : ℕ) :
    cstr (s.take k) = s.take (cstr (s.take k)).length ∧ (cstr (s.take k)).length ≤ k :=
  ⟨List.prefix_iff_eq_take.1 (( cstr_prefix _).trans (List.take_prefix _ _)),
    (cstr_length_le _).trans (List.length_take_le _ _)⟩

theorem HeaderEnds.pos (h : HeaderEnds s e) : 0 < e := by
  obtain ⟨i, -, rfl⟩ := h
  omega

theorem HeaderEnds.unique (h : HeaderEnds s e) (h' : HeaderEnds s j) : j = e := by
  obtain ⟨i, hi, rfl⟩ := h
  obtain ⟨i', hi', rfl⟩ := h'
  rw [hi] at hi'
  rw [Option.some.inj hi']

/-- A header ends in a line feed. -/
theorem HeaderEnds.getLast? (h : HeaderEnds s e) : (s.take e).getLast? = some 10 := by
  obtain ⟨i, hi, rfl⟩ := h
  obtain ⟨⟨rest, hrest⟩, hle⟩ := Search.find_some hi
  have htake : s.take (i + 4) = s.take i ++ crlfPair := by
    rw [List.take_add, ← hrest]
    rfl
  rw [htake, List.getLast?_append_of_ne_nil (s.take i) (by decide)]
  rfl

/-- The header is found where the text holds it. -/
theorem HeaderEnds.find_take (h : HeaderEnds s e) :
    Search.find crlfPair (s.take j) = some i ↔ e ≤ j ∧ i + 4 = e := by
  obtain ⟨i', hi', rfl⟩ := h
  rw [Appliance.find_take, hi']
  constructor
  · rintro ⟨heq, hle⟩
    cases heq
    exact ⟨hle, rfl⟩
  · rintro ⟨hle, heq⟩
    obtain rfl : i = i' := by omega
    exact ⟨rfl, hle⟩

/-- What a header gives as the number is not changed by what stands behind it. -/
theorem HeaderEnds.httpContentLength_take (h : HeaderEnds s e) (hle : e ≤ j)
    (hne : httpContentLength (s.take e) ≠ 0) :
    httpContentLength (s.take j) = httpContentLength (s.take e) := by
  obtain ⟨d, rfl⟩ := Nat.exists_eq_add_of_le hle
  rw [List.take_add, httpContentLength_append h.getLast? hne]

theorem HeaderEnds.methodAndPath_take {r : Bytes × Bytes} (h : HeaderEnds s e) (hle : e ≤ j)
    (hline : methodAndPath (s.take e) = some r) : methodAndPath (s.take j) = some r := by
  obtain ⟨d, rfl⟩ := Nat.exists_eq_add_of_le hle
  rw [List.take_add]
  exact methodAndPath_append h.getLast? rfl hline

/-- The loop's test, by the text in the buffer. -/
theorem isComplete_take (hk : k ≤ s.length) (htext : cstr (s.take k) = s.take j) :
    isComplete (s.take k) = true ↔
      ∃ e, HeaderEnds s e ∧ e ≤ j ∧ e + httpContentLength (s.take j) ≤ k := by
  have hlen : (s.take k).length = k := List.length_take_of_le hk
  unfold isComplete
  rw [htext, hlen]
  cases hfind : Search.find crlfPair (s.take j) with
  | none =>
    refine ⟨fun h => absurd h Bool.false_ne_true, fun ⟨e, he, hej, _⟩ => ?_⟩
    obtain ⟨i, hi, rfl⟩ := he
    have := find_take.2 ⟨hi, hej⟩
    rw [hfind] at this
    cases this
  | some i =>
    obtain ⟨hi, hle⟩ := find_take.1 hfind
    have hends : HeaderEnds s (i + 4) := ⟨i, hi, rfl⟩
    dsimp only
    rw [decide_eq_true_iff]
    constructor
    · exact fun h => ⟨i + 4, hends, hle, h⟩
    · rintro ⟨e, he, -, h⟩
      rwa [he.unique hends]

/-- The request at a stop. -/
theorem parseRequest_take (h : HeaderEnds s e) (hle : e ≤ j) (htext : cstr (s.take k) = s.take j) :
    parseRequest (s.take k) =
      (methodAndPath (s.take j)).map fun line => ⟨line.1, line.2, (s.take j).drop e⟩ := by
  obtain ⟨i, hi, rfl⟩ := h
  have hfind : Search.find crlfPair (s.take j) = some i := find_take.2 ⟨hi, hle⟩
  unfold parseRequest
  rw [htext, hfind]
  cases methodAndPath (s.take j) with
  | none => rfl
  | some line => rfl

/-- The text ends where it meets a NUL byte. -/
theorem cstr_take_of_nul (hnul : 0 ∉ s.take j) (hzero : s[j]? = some 0) (hlt : j < k) :
    cstr (s.take k) = s.take j := by
  obtain ⟨d, rfl⟩ := Nat.exists_eq_add_of_lt hlt
  obtain ⟨hj, hget⟩ := List.getElem?_eq_some_iff.1 hzero
  have hcons : s.drop j = 0 :: s.drop (j + 1) := by rw [← hget, List.drop_eq_getElem_cons hj]
  rw [Nat.add_assoc, List.take_add, hcons, List.take_succ_cons, cstr_append hnul]
  exact List.append_nil _

/-- A text that ends within the bytes meets a NUL byte. -/
theorem nul_of_cstr_take (hk : k ≤ s.length) (htext : cstr (s.take k) = s.take j) (hlt : j < k) :
    s[j]? = some 0 := by
  have hj : j < s.length := hlt.trans_le hk
  have hlen : (cstr (s.take k)).length = j := by
    rw [htext, List.length_take_of_le hj.le]
  have hparts : cstr (s.take k) ++ (s.take k).dropWhile (· != 0) = s.take k :=
    List.takeWhile_append_dropWhile
  rw [← List.getElem?_take_of_lt hlt, ← hparts, List.getElem?_append_right hlen.le, hlen,
    Nat.sub_self]
  cases hrest : (s.take k).dropWhile (· != 0) with
  | nil =>
    have hall := congrArg List.length hparts
    rw [hrest, List.append_nil, hlen, List.length_take_of_le hk] at hall
    omega
  | cons c rest =>
    have hne : (s.take k).dropWhile (· != 0) ≠ [] := by
      rw [hrest]
      exact List.cons_ne_nil _ _
    have hc := List.head_dropWhile_not (· != 0) hne
    simp only [hrest, List.head_cons, bne_eq_false_iff_eq] at hc
    rw [hc]
    rfl

end Text

section Whole
variable {s : Bytes} {e k n : ℕ}

/-- What every stop has in the buffer, of a stream that is one request. -/
theorem OneRequest.text (h : OneRequest s e n) (hk : k ≤ readable s) :
    cstr (s.take k) = s.take (min k (e + n)) := by
  obtain hle | hlt := le_or_gt k (e + n)
  · rw [min_eq_left hle]
    refine cstr_eq_self fun hzero => h.noNul ?_
    exact (List.take_prefix_take_left hle).subset hzero
  · rw [min_eq_right hlt.le]
    refine cstr_take_of_nul h.noNul (h.ends.resolve_left ?_) hlt
    omega

/-- Where the number is none, so is the body, and else it is read from every longer text. -/
theorem OneRequest.number_take {j : ℕ} (h : OneRequest s e n) (hj : e ≤ j) (hle : j ≤ e + n) :
    httpContentLength (s.take j) = httpContentLength (s.take e) := by
  by_cases hzero : httpContentLength (s.take e) = 0
  · have hn := h.number.1
    obtain rfl : j = e := by omega
    rfl
  · exact h.header.httpContentLength_take hj hzero

theorem readable_le (s : Bytes) : readable s ≤ s.length := Nat.min_le_left _ _

/-- The whole of what is readable is a stop. -/
theorem OneRequest.complete (h : OneRequest s e n) :
    isComplete (s.take (readable s)) = true := by
  have hfits := h.fits
  have hj : e ≤ min (readable s) (e + n) := by omega
  refine (isComplete_take (readable_le s) (h.text le_rfl)).2 ⟨e, h.header, hj, ?_⟩
  rw [h.number_take hj (Nat.min_le_right _ _)]
  exact h.number.2

/-- Every stop returns the request. -/
theorem OneRequest.parse (h : OneRequest s e n) {line : Bytes × Bytes}
    (hline : methodAndPath (s.take e) = some line) (hstop : Stops s k) :
    parseRequest (s.take k) = some ⟨line.1, line.2, (s.drop e).take n⟩ := by
  have hk := hstop.le
  have htext := h.text hk
  obtain ⟨e', he', hej, hcount⟩ :=
    (isComplete_take (hk.trans (readable_le s)) htext).1 hstop.complete
  obtain rfl : e' = e := h.header.unique he'
  rw [h.number_take hej (Nat.min_le_right _ _)] at hcount
  have hn := h.number.1
  have hmin : min k (e' + n) = e' + n := by omega
  rw [hmin] at htext
  rw [parseRequest_take h.header (Nat.le_add_right _ _) htext,
    h.header.methodAndPath_take (Nat.le_add_right _ _) hline, Option.map_some, List.drop_take,
    Nat.add_sub_cancel_left]

/-- What a split returns is the request at a stop. -/
theorem httpReadRequest_some {calls : List ℕ} {r : ParsedRequest}
    (h : httpReadRequest (split s calls) = some r) :
    ∃ k, Stops s k ∧ parseRequest (s.take k) = some r := by
  obtain ⟨t, ht, hr⟩ := Option.bind_eq_some_iff.1 h
  obtain ⟨k, hstop, rfl⟩ := readLoop_some (s := s) _ _ (List.nil_append _) (Nat.zero_le _) ht
  exact ⟨k, hstop, hr⟩

theorem exists_request (h : Stops s k) :
    ∃ calls, httpReadRequest (split s calls) = parseRequest (s.take k) := by
  obtain ⟨calls, hcalls⟩ := exists_split h
  refine ⟨calls, ?_⟩
  unfold httpReadRequest
  rw [hcalls]
  rfl

theorem NeverAccepted.fails (h : NeverAccepted s) (calls : List ℕ) :
    httpReadRequest (split s calls) = none := by
  cases hread : httpReadRequest (split s calls) with
  | none => rfl
  | some r =>
    obtain ⟨k, hstop, hr⟩ := httpReadRequest_some hread
    unfold parseRequest at hr
    rw [h k hstop] at hr
    cases hr

theorem NeverAccepted.readsWhole (h : NeverAccepted s) : ReadsWhole s where
  same calls calls' := by rw [h.fails, h.fails]
  whole calls r hread := by
    rw [h.fails] at hread
    cases hread

theorem OneRequest.readsWhole (h : OneRequest s e n) : ReadsWhole s := by
  obtain ⟨line, hline⟩ := Option.isSome_iff_exists.1 h.line
  have hpos := h.header.pos
  have hfits := h.fits
  have hread : ∀ calls, httpReadRequest (split s calls) =
      some ⟨line.1, line.2, (s.drop e).take n⟩ := by
    intro calls
    obtain ⟨t, ht⟩ := readLoop_stops calls [] s (List.nil_append s)
      (by rw [List.length_nil]; omega) h.complete
    obtain ⟨k, hstop, rfl⟩ := readLoop_some (s := s) _ _ (List.nil_append _) (Nat.zero_le _) ht
    unfold httpReadRequest
    rw [ht]
    exact h.parse hline hstop
  refine ⟨fun calls calls' => by rw [hread, hread], fun calls r hr => ⟨e, n, ?_⟩⟩
  rw [hread] at hr
  obtain rfl := Option.some.inj hr
  exact ⟨h.header, h.announced, hfits.trans (readable_le s), hline, rfl⟩

/-- With one outcome that is a request, all that is readable is a stop. -/
theorem ReadsWhole.complete (h : ReadsWhole s) (hstop : Stops s k)
    (hline : methodAndPath (cstr (s.take k)) ≠ none) :
    Stops s (readable s) ∧ ∃ r, ∀ k, Stops s k → parseRequest (s.take k) = some r := by
  obtain ⟨calls, hcalls⟩ := exists_request hstop
  obtain ⟨r, hr⟩ : ∃ r, parseRequest (s.take k) = some r := by
    unfold parseRequest
    cases hcase : methodAndPath (cstr (s.take k)) with
    | none => exact absurd hcase hline
    | some line => exact ⟨_, rfl⟩
  have hread : ∀ calls, httpReadRequest (split s calls) = some r := fun calls' => by
    rw [h.same calls' calls, hcalls, hr]
  have hpos := hstop.pos
  have hle := hstop.le
  refine ⟨⟨by omega, le_rfl, ?_⟩, r, fun k' hstop' => ?_⟩
  · by_contra hall
    have hfails := exists_failure (Bool.eq_false_iff.2 hall)
    have hnone := hread []
    unfold httpReadRequest at hnone
    rw [hfails] at hnone
    cases hnone
  · obtain ⟨calls', hcalls'⟩ := exists_request hstop'
    rw [← hcalls', hread]

/-- The text at a stop, where what is returned has the whole body. -/
theorem WholeRequest.text {r : ParsedRequest} (h : WholeRequest s r e n) (hstop : Stops s k)
    (hparse : parseRequest (s.take k) = some r) :
    cstr (s.take k) = s.take (e + n) ∧ e + n ≤ k ∧ e + httpContentLength (s.take (e + n)) ≤ k := by
  obtain ⟨htext, hle⟩ := cstr_take s k
  obtain ⟨j, hj⟩ : ∃ j, j = (cstr (s.take k)).length := ⟨_, rfl⟩
  rw [← hj] at htext hle
  have hks := hstop.le.trans (readable_le s)
  obtain ⟨e', he', hej, hcount⟩ := (isComplete_take hks htext).1 hstop.complete
  obtain rfl : e' = e := h.header.unique he'
  rw [parseRequest_take h.header hej htext] at hparse
  obtain ⟨line, -, rfl⟩ := Option.map_eq_some_iff.1 hparse
  have hbody := congrArg List.length h.body
  have hthere := h.there
  rw [List.length_drop, List.length_take, List.length_take, List.length_drop] at hbody
  obtain rfl : j = e' + n := by omega
  exact ⟨htext, hle, hcount⟩

theorem ReadsWhole.oneRequest (h : ReadsWhole s) (hstop : Stops s k)
    (hline : methodAndPath (cstr (s.take k)) ≠ none) : ∃ e n, OneRequest s e n := by
  obtain ⟨hall, r, hparse⟩ := h.complete hstop hline
  obtain ⟨calls, hcalls⟩ := exists_request hall
  obtain ⟨e, n, hwhole⟩ := h.whole calls r (hcalls.trans (hparse _ hall))
  obtain ⟨htext, hfits, hcount⟩ := hwhole.text hall (hparse _ hall)
  have hnoNul : 0 ∉ s.take (e + n) := htext ▸ zero_not_mem_cstr _
  have hnumber : e + httpContentLength (s.take e) ≤ readable s := by
    by_cases hzero : httpContentLength (s.take e) = 0
    · omega
    · rwa [hwhole.header.httpContentLength_take (Nat.le_add_right _ _) hzero] at hcount
  refine ⟨e, n, hwhole.header, hwhole.announced, hfits, hnoNul, ?_, ⟨?_, hnumber⟩, ?_⟩
  · obtain heq | hlt := Nat.eq_or_lt_of_le hfits
    · exact Or.inl heq
    · exact Or.inr (nul_of_cstr_take (readable_le s) htext hlt)
  · -- with a smaller number the loop can stop in front of the body's end
    by_contra hless
    obtain ⟨N, hN⟩ : ∃ N, N = httpContentLength (s.take e) := ⟨_, rfl⟩
    rw [← hN] at hless hnumber
    have hsub : s.take (e + N) <+: s.take (e + n) := List.take_prefix_take_left (by omega)
    have hshort : cstr (s.take (e + N)) = s.take (e + N) :=
      cstr_eq_self fun hzero => hnoNul (hsub.subset hzero)
    have hlen := readable_le s
    have hstop' : Stops s (e + N) := by
      refine ⟨by have := hwhole.header.pos; omega, hnumber, ?_⟩
      refine (isComplete_take (by omega) hshort).2
        ⟨e, hwhole.header, Nat.le_add_right _ _, ?_⟩
      by_cases hzero : N = 0
      · subst hzero
        rw [Nat.add_zero, ← hN, Nat.add_zero]
      · rw [hwhole.header.httpContentLength_take (Nat.le_add_right _ _) (hN ▸ hzero), ← hN]
    obtain ⟨-, hle, -⟩ := hwhole.text hstop' (hparse _ hstop')
    omega
  · rw [hwhole.line]
    rfl

/-- A stream is read whole exactly if no stop has a request in it, or if it is one request and the
first `Content-Length:` is followed by its number, up to 4096. -/
theorem readsWhole_iff (s : Bytes) : ReadsWhole s ↔ NeverAccepted s ∨ ∃ e n, OneRequest s e n := by
  constructor
  · intro h
    by_cases hnever : NeverAccepted s
    · exact Or.inl hnever
    · refine Or.inr ?_
      unfold NeverAccepted at hnever
      push Not at hnever
      obtain ⟨k, hstop, hline⟩ := hnever
      exact h.oneRequest hstop hline
  · rintro (hnever | ⟨e, n, hone⟩)
    · exact hnever.readsWhole
    · exact hone.readsWhole

end Whole

/-- A request whose body of 4097 bytes is still to come. -/
def overLimit : Bytes := lit "POST /v1/completions HTTP/1.1\x0d\nContent-Length: 4097\x0d\n\x0d\n"

/-- It is not refused: however it is split, its body is taken to be empty. -/
theorem overLimit_accepted :
    (∀ calls, httpReadRequest (split overLimit calls) =
      some ⟨lit "POST", lit "/v1/completions", []⟩) ∧ ¬ ReadsWhole overLimit := by
  have hreadable : readable overLimit = 55 := by decide
  have hall : isComplete (overLimit.take 55) = true := by decide
  have honly : ∀ k < 55, isComplete (overLimit.take k) = false := by decide
  have hparse : parseRequest (overLimit.take 55) =
      some ⟨lit "POST", lit "/v1/completions", []⟩ := by decide
  have hread : ∀ calls, httpReadRequest (split overLimit calls) =
      some ⟨lit "POST", lit "/v1/completions", []⟩ := by
    intro calls
    obtain ⟨t, ht⟩ := readLoop_stops calls [] overLimit (List.nil_append _)
      (by rw [hreadable]; decide) (by rw [hreadable]; exact hall)
    obtain ⟨k, hstop, rfl⟩ :=
      readLoop_some (s := overLimit) _ _ (List.nil_append _) (Nat.zero_le _) ht
    obtain hlt | heq := Nat.lt_or_eq_of_le (hreadable ▸ hstop.le)
    · have := hstop.complete
      rw [honly k hlt] at this
      cases this
    · unfold httpReadRequest
      rw [ht, heq]
      exact hparse
  refine ⟨hread, fun h => ?_⟩
  obtain ⟨e, n, hwhole⟩ := h.whole [] _ (hread [])
  have hends : HeaderEnds overLimit 55 := ⟨51, by decide, rfl⟩
  obtain rfl : e = 55 := hends.unique hwhole.header
  have hannounced : announcedLength (overLimit.take 55) = some 4097 := by decide
  obtain rfl : 4097 = n := Option.some.inj (hannounced.symm.trans hwhole.announced)
  have hthere : 55 + 4097 ≤ overLimit.length := hwhole.there
  have hlen : overLimit.length = 55 := by decide
  omega

end Ds4.Appliance
