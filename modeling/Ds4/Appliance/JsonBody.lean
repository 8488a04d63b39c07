import Ds4.Appliance.Server
import Ds4.Json.Correct
import Ds4.Json.Literals

/-! The members that the appliance reads out of a request's body, and the session key and the
prompt's fingerprint that it makes of them. A body is the bytes in front of its NUL. -/
namespace Ds4.Appliance.JsonBody
open Ds4.Json

/-- What stands behind the first occurrence of a key. -/
def behind (key : Bytes) (body : Bytes) : Option Bytes :=
  (Search.find key body).map fun i => body.drop (i + key.length)

/-- The loop that copies a string of at most so many characters. Of an escape only the backslash
is dropped. -/
def copyString (quote : UInt8) : ℕ → Bytes → Bytes
  | 0, _ => []
  | _ + 1, [] => []
  | n + 1, 92 :: c :: p => c :: copyString quote n p
  | n + 1, c :: p => if c = quote then [] else c :: copyString quote n p

/-- The string that begins at the next quote. -/
def nextString (p : Bytes) : Bytes :=
  let p := p.dropWhile fun c => c == 32 || c == 9 || c == 58
  match p.dropWhile fun c => c != 34 && c != 39 with
  | [] => []
  | quote :: p => copyString quote 256 p

/-- `json_find_string`. -/
def jsonFindString (body key : Bytes) : Bytes :=
  match behind key body with
  | none => []
  | some p => nextString p

/-- `strtoul` to base 10: the number, and what stands behind it. -/
def strtoul (s : Bytes) : Option (ℕ × Bytes) :=
  let s := s.dropWhile isSpace
  let negative := s.head? == some 45
  let s := if negative || s.head? == some 43 then s.drop 1 else s
  let digits := s.takeWhile isDigit
  let n : ℕ := digits.foldl (fun n c => n * 10 + (c.toNat - 48)) 0
  if digits = [] then none
  else some (if 2 ^ 64 ≤ n then 2 ^ 64 - 1 else if negative then (2 ^ 64 - n) % 2 ^ 64 else n,
    s.drop digits.length)

/-- The loop of `json_find_uint_array` behind the bracket. -/
def uintArrayLoop (limit : ℕ) : ℕ → Bytes → List UInt32 → Option (List UInt32)
  | 0, _, _ => none
  | fuel + 1, p, out =>
      if p = [] ∨ p.head? = some 93 then if p.head? = some 93 ∧ out ≠ [] then some out else none
      else
        let p := p.dropWhile fun c => isWs c || c == 44
        if p.head? = some 93 then if out ≠ [] then some out else none
        else
          match strtoul p with
          | none => none
          | some (v, p) =>
              if 2 ^ 32 ≤ v ∨ limit ≤ out.length then none
              else
                let p := p.dropWhile isWs
                if p ≠ [] ∧ p.head? ≠ some 44 ∧ p.head? ≠ some 93 then none
                else uintArrayLoop limit fuel p (out ++ [v.toUInt32])

/-- `json_find_uint_array`. Each turn of the loop takes a digit of the body. -/
def jsonFindUintArray (body key : Bytes) (limit : ℕ) : Option (List UInt32) :=
  match behind key body with
  | none => none
  | some p =>
      match p.dropWhile fun c => c != 91 && c != 123 && c != 34 && c != 39 with
      | 91 :: p => uintArrayLoop limit (p.length + 1) p []
      | _ => none

/-- A member's name as it is looked for. -/
def quoted (name : Bytes) : Bytes := 34 :: (name ++ [34])

def fnv1a64 (s : Bytes) : UInt64 :=
  s.foldl (fun h c => (h ^^^ c.toUInt64) * 1099511628211) 1469598103934665603

/-- `%016llx`. -/
def hex16 (h : UInt64) : Bytes :=
  (List.range 16).map fun i =>
    let d := (h.toNat / 16 ^ (15 - i)) % 16
    (if d < 10 then 48 + d else 87 + d).toUInt8

/-- `http_request_cache_key`, and whether the request names it. -/
def httpRequestCacheKey (body : Bytes) (requestSerial : ℕ) : Bytes × Bool :=
  let key := jsonFindString body (quoted (lit "session_id"))
  let key := if key = [] then jsonFindString body (quoted (lit "cache_key")) else key
  let key := if key = [] then jsonFindString body (quoted (lit "conversation_id")) else key
  if key ≠ [] then (key, true)
  else
    let prompt := jsonFindString body (quoted (lit "prompt"))
    if prompt ≠ [] then (lit "prompt:" ++ hex16 (fnv1a64 prompt), false)
    else (lit "ephemeral:" ++ lit (toString requestSerial), false)

/-- `http_request_prompt_fingerprint`, with the request's token ids behind it. -/
def promptFingerprint (body : Bytes) (promptTokenIds : List UInt32) :
    Option UInt64 × List UInt32 :=
  if promptTokenIds ≠ [] then (some (fnv1a64U32 promptTokenIds), promptTokenIds)
  else
    match (jsonFindUintArray body (quoted (lit "prompt_tokens")) 262144).or
        (jsonFindUintArray body (quoted (lit "prompt")) 262144) with
    | some ids => (some (fnv1a64U32 ids), ids)
    | none =>
        let prompt := jsonFindString body (quoted (lit "prompt"))
        if prompt = [] then (none, []) else (some (fnv1a64 prompt), [])

/-- A body that is a JSON object, between blanks. -/
def ObjectBody (body : Bytes) (l : List (List StrElem × Syn)) : Prop :=
  ∃ a t b, Ws a ∧ ValueText t (.obj l) ∧ Ws b ∧ body = a ++ (t ++ b)

/-- A name that no text has outside its strings. -/
structure IsName (name : Bytes) : Prop where
  noQuote : 34 ∉ name
  noEscape : 92 ∉ name
  foreign : ∃ c ∈ name, c ∉ outside

/-- The literal is the name, or ends in a quote and the name. -/
def mentions (name b : Bytes) : Bool := decide ((34 :: name) <:+ (34 :: b))

/-- The literal behind the first one that mentions the name. -/
def literalBehind (name : Bytes) (ls : List Bytes) : Option Bytes :=
  ((ls.dropWhile fun b => !mentions name b).drop 1).head?

section Search
variable {name g b rest body : Bytes} {es : List StrElem} {ls : List Bytes}

theorem behind_cons {key : Bytes} {c : UInt8} {s : Bytes} :
    behind key (c :: s) =
      if key <+: c :: s then some ((c :: s).drop key.length) else behind key s := by
  unfold behind
  rw [Search.find]
  split_ifs with h
  · rw [Option.map_some, Nat.zero_add]
  · cases Search.find key s with
    | none => rfl
    | some i =>
      simp only [Option.map_some, Nat.add_right_comm i 1, List.drop_succ_cons]

theorem behind_skip {c : UInt8} {s : Bytes} (h : c ≠ 34) :
    behind (quoted name) (c :: s) = behind (quoted name) s := by
  rw [behind_cons, if_neg]
  intro hpre
  exact h (List.cons_prefix_cons.1 hpre).1.symm

theorem behind_quiet (h : 34 ∉ g) :
    behind (quoted name) (g ++ rest) = behind (quoted name) rest := by
  induction g with
  | nil => rfl
  | cons c g ih =>
    obtain ⟨hc, hg⟩ := not_or.1 fun hmem => h (List.mem_cons.2 hmem)
    rw [List.cons_append, behind_skip (Ne.symm hc), ih hg]

/-- Every quote of a text stands behind a backslash. -/
def Escaped (b : Bytes) : Prop := ∀ x y, b = x ++ 34 :: y → x.getLast? = some 92

theorem Escaped.cons {c : UInt8} (hc : c ≠ 34) (h : Escaped b) : Escaped (c :: b) := by
  intro x y heq
  cases x with
  | nil => exact absurd (List.cons.inj heq).1 hc
  | cons d x =>
    have hlast := h x y (List.cons.inj heq).2
    rw [List.getLast?_cons, hlast]
    rfl

/-- A quote inside of a literal is escaped. -/
theorem escaped_body (hb : BodyText b es) : Escaped b := by
  induction hb with
  | nil =>
    intro x y heq
    have := congrArg List.length heq
    rw [List.length_append, List.length_cons, List.length_nil] at this
    omega
  | raw hlo hq hb hbody ih => exact ih.cons hq
  | esc he hbody ih =>
    intro x y heq
    cases x with
    | nil => cases (List.cons.inj heq).1
    | cons c x =>
      obtain ⟨rfl, heq⟩ := List.cons.inj heq
      cases x with
      | nil => rfl
      | cons e x =>
        have hlast := ih x y (List.cons.inj (List.cons.inj heq).2).2
        rw [List.getLast?_cons, List.getLast?_cons, hlast]
        rfl
  | unit hu hbody ih =>
    have hplain := hex4_plain hu
    simp only [List.mem_cons, List.not_mem_nil, or_false, forall_eq_or_imp, forall_eq] at hplain
    obtain ⟨hw, hx, hy, hz⟩ := hplain
    exact ((((ih.cons hz.1).cons hy.1).cons hx.1).cons hw.1 |>.cons (by decide)).cons (by decide)

/-- A name and a quote begin a text that a quote ends, if the text is the name or has the quote
itself. -/
theorem name_prefix {v : Bytes} (hname : 34 ∉ name) (h : name ++ [34] <+: v ++ 34 :: rest) :
    v = name ∨ ∃ z, v = name ++ 34 :: z := by
  obtain ⟨z, hz⟩ := h
  rw [List.append_assoc, List.singleton_append] at hz
  obtain ⟨y, hy, hrest⟩ | ⟨y, hy, hrest⟩ := List.append_eq_append_iff.1 hz
  · cases y with
    | nil =>
      rw [List.append_nil] at hy
      exact Or.inl hy
    | cons c y =>
      obtain ⟨rfl, -⟩ := List.cons.inj hrest
      exact Or.inr ⟨y, hy⟩
  · cases y with
    | nil =>
      rw [List.append_nil] at hy
      exact Or.inl hy.symm
    | cons c y =>
      obtain ⟨rfl, -⟩ := List.cons.inj hrest
      exact absurd (hy ▸ List.mem_append_right _ List.mem_cons_self) hname

/-- In a literal and its quotes the key is found at the end or not at all. -/
theorem behind_literal {v : Bytes} (hname : 34 ∉ name)
    (hinner : ∀ x z, v ≠ x ++ 34 :: (name ++ 34 :: z)) :
    behind (quoted name) (v ++ 34 :: rest) =
      if (34 :: name) <:+ v then some rest else behind (quoted name) (34 :: rest) := by
  induction v with
  | nil =>
    rw [if_neg]
    · rfl
    · intro h
      cases List.suffix_nil.1 h
  | cons c v ih =>
    have hinner' : ∀ x z, v ≠ x ++ 34 :: (name ++ 34 :: z) := fun x z heq =>
      hinner (c :: x) z (congrArg (List.cons c) heq)
    rw [List.cons_append, behind_cons, ih hinner']
    by_cases hhere : c :: v = 34 :: name
    · obtain ⟨rfl, rfl⟩ := List.cons.inj hhere
      have hpre : quoted v <+: 34 :: (v ++ 34 :: rest) := ⟨rest, by simp [quoted]⟩
      have hdrop : (34 :: (v ++ 34 :: rest)).drop (quoted v).length = rest := by
        simp [quoted, List.drop_append]
      rw [if_pos hpre, if_pos (List.suffix_refl _), hdrop]
    · have hpre : ¬ quoted name <+: c :: (v ++ 34 :: rest) := by
        intro hpre
        obtain ⟨rfl, hname'⟩ := List.cons_prefix_cons.1 hpre
        obtain rfl | ⟨z, rfl⟩ := name_prefix hname hname'
        · exact hhere rfl
        · exact hinner [] z rfl
      have hsuffix : (34 :: name) <:+ c :: v ↔ (34 :: name) <:+ v := by
        rw [List.suffix_cons_iff]
        exact or_iff_right fun h => hhere h.symm
      rw [if_neg hpre]
      exact if_congr hsuffix.symm rfl rfl

/-- The quote that ends a literal does not begin the key. -/
theorem behind_close (hname : IsName name) (h : Layout rest ls) :
    behind (quoted name) (34 :: rest) = behind (quoted name) rest := by
  rw [behind_cons, if_neg]
  intro hpre
  obtain ⟨-, z, hz⟩ := List.cons_prefix_cons.1 hpre
  rw [List.append_assoc, List.singleton_append] at hz
  obtain ⟨c, hc, hforeign⟩ := hname.foreign
  cases h with
  | last hg => exact hforeign (hg c (hz ▸ List.mem_append_left _ hc))
  | lit hg hb hrest =>
    obtain ⟨y, hy, htail⟩ | ⟨y, hy, htail⟩ := List.append_eq_append_iff.1 hz
    · exact hforeign (hg c (hy ▸ List.mem_append_left _ hc))
    · cases y with
      | nil =>
        rw [List.append_nil] at hy
        exact hforeign (hg c (hy ▸ hc))
      | cons d y =>
        obtain ⟨rfl, -⟩ := List.cons.inj htail
        exact hname.noQuote (hy ▸ List.mem_append_right _ List.mem_cons_self)

/-- The key is found behind the first literal that mentions the name. -/
theorem behind_step (hname : IsName name) (hg : Quiet g) (hb : BodyText b es)
    (hrest : Layout rest ls) :
    behind (quoted name) (g ++ 34 :: (b ++ 34 :: rest)) =
      if mentions name b then some rest else behind (quoted name) rest := by
  have hinner : ∀ x z, 34 :: b ≠ x ++ 34 :: (name ++ 34 :: z) := by
    intro x z heq
    obtain ⟨d, hd, -⟩ := hname.foreign
    have hne : name ≠ [] := List.ne_nil_of_mem hd
    have hlast : name.getLast? = some 92 := by
      cases x with
      | nil => exact escaped_body hb name z (List.cons.inj heq).2
      | cons c x =>
        have hb' : b = (x ++ 34 :: name) ++ 34 :: z := by
          rw [(List.cons.inj heq).2, List.append_assoc]
          rfl
        have := escaped_body hb _ z hb'
        rwa [List.getLast?_append_of_ne_nil _ (List.cons_ne_nil _ _),
          List.getLast?_cons_of_ne_nil hne]
          at this
    exact hname.noEscape (List.mem_of_getLast? hlast)
  have hlit := @behind_literal _ rest _ hname.noQuote hinner
  rw [behind_quiet hg.no_quote, ← List.cons_append, hlit, behind_close hname hrest]
  exact if_congr (decide_eq_true_iff).symm rfl rfl

end Search

/-! What is read behind the key. -/
section Read
variable {name g b rest body : Bytes} {es : List StrElem} {ls : List Bytes}

variable {p q : Bytes}

theorem copyString_cons {c : UInt8} (hq : c ≠ 34) (hb : c ≠ 92)
    (h : ∀ n, copyString 34 n p = q.take n) (n : ℕ) :
    copyString 34 n (c :: p) = (c :: q).take n := by
  cases n with
  | zero => rw [List.take_zero, copyString]
  | succ n =>
    rw [copyString.eq_4 _ _ _ _ fun _ _ hc _ => hb hc, if_neg hq, h, List.take_succ_cons]

theorem copyString_escape {c : UInt8} (h : ∀ n, copyString 34 n p = q.take n) (n : ℕ) :
    copyString 34 n (92 :: c :: p) = (c :: q).take n := by
  cases n with
  | zero => rw [List.take_zero, copyString]
  | succ n => rw [copyString, h, List.take_succ_cons]

/-- A literal is copied without the backslashes of its escapes, and cut. -/
theorem copyString_body (hb : BodyText b es) (n : ℕ) :
    copyString 34 n (b ++ 34 :: rest) = (bare b).take n := by
  induction hb generalizing n with
  | nil =>
    cases n with
    | zero => rfl
    | succ n =>
      rw [List.nil_append, copyString.eq_4 _ _ _ _ fun _ _ hc _ => by cases hc]
      rfl
  | raw hlo hq hb hbody ih =>
    rw [(bare_raw hb).1]
    exact copyString_cons hq hb ih n
  | esc he hbody ih =>
    rw [bare]
    exact copyString_escape ih n
  | unit hu hbody ih =>
    have hplain := hex4_plain hu
    simp only [List.mem_cons, List.not_mem_nil, or_false, forall_eq_or_imp, forall_eq] at hplain
    obtain ⟨hw, hx, hy, hz⟩ := hplain
    rw [bare_unit hu]
    exact copyString_escape (copyString_cons hw.1 hw.2.1 (copyString_cons hx.1 hx.2.1
      (copyString_cons hy.1 hy.2.1 (copyString_cons hz.1 hz.2.1 ih)))) n

/-- What a longer skip takes need not be skipped in front of it. -/
theorem dropWhile_dropWhile {skip skip' : UInt8 → Bool} (h : ∀ c, skip c = true → skip' c = true)
    (s : Bytes) : (s.dropWhile skip).dropWhile skip' = s.dropWhile skip' := by
  induction s with
  | nil => rfl
  | cons c s ih =>
    by_cases hskip : skip c = true
    · rw [List.dropWhile_cons_of_pos hskip, ih, List.dropWhile_cons_of_pos (h c hskip)]
    · rw [List.dropWhile_cons_of_neg hskip]

/-- The next quote is the one behind what stands outside of the literals. -/
theorem skip_quiet (hg : Quiet g) :
    (g ++ p).dropWhile (fun c => c != 34 && c != 39) =
      p.dropWhile fun c => c != 34 && c != 39 := by
  have hall : outside.all (fun c => c != 34 && c != 39) = true := by decide
  exact List.dropWhile_append_of_pos fun c hc => List.all_eq_true.1 hall c (hg c hc)

/-- Behind a key the next literal is read, without its backslashes and cut. -/
theorem nextString_layout (h : Layout rest ls) :
    nextString rest = (ls.head?.map fun b => (bare b).take 256).getD [] := by
  have hblank : ∀ c : UInt8, (c == 32 || c == 9 || c == 58) = true →
      (c != 34 && c != 39) = true := by
    intro c hc
    simp only [Bool.or_eq_true, beq_iff_eq] at hc
    rcases hc with (rfl | rfl) | rfl <;> decide
  unfold nextString
  dsimp only
  rw [dropWhile_dropWhile hblank]
  cases h with
  | last hg =>
    rw [← List.append_nil rest, skip_quiet hg]
    rfl
  | lit hg hb hrest =>
    rw [skip_quiet hg]
    exact copyString_body hb 256

/-- What the code reads of a text, by its literals. -/
theorem jsonFindString_layout (hname : IsName name) (h : Layout body ls) :
    jsonFindString body (quoted name) =
      ((literalBehind name ls).map fun b => (bare b).take 256).getD [] := by
  unfold jsonFindString
  induction h with
  | @last g hg =>
    have hnone : behind (quoted name) g = none := by
      rw [← List.append_nil g, behind_quiet hg.no_quote]
      rfl
    rw [hnone]
    rfl
  | @lit g b rest es ls hg hb hrest ih =>
    rw [behind_step hname hg hb hrest]
    unfold literalBehind
    by_cases hm : mentions name b = true
    · rw [if_pos hm, List.dropWhile_cons_of_neg (by rw [hm]; exact Bool.false_ne_true)]
      exact nextString_layout hrest
    · rw [if_neg hm, List.dropWhile_cons_of_pos (by rw [Bool.eq_false_iff.2 hm]; rfl)]
      exact ih

end Read

/-! When the string that is read is that of the member. -/

/-- What the literal that is read has to be for a member's string: the string itself with escapes
of quotes, backslashes and slashes alone and at most 256 bytes, or another one that is misread as
it. Where none is read the string must be empty. -/
inductive ReadsAs : Option Bytes → Bytes → Prop
  | absent : ReadsAs none []
  | written {b es} : BodyText b es → plainEscapes b = true → (decode es).length ≤ 256 →
      ReadsAs (some b) (decode es)
  | misread {b} : ¬ (plainEscapes b = true ∧ (bare b).length ≤ 256) →
      ReadsAs (some b) ((bare b).take 256)

section Reads
variable {name b body : Bytes} {es k : List StrElem} {l : List (List StrElem × Syn)}

theorem isName_of (h : name = lit "prompt" ∨ name = lit "session_id") : IsName name := by
  obtain rfl | rfl := h
  · exact ⟨by decide, by decide, by decide⟩
  · exact ⟨by decide, by decide, by decide⟩

theorem objectBody_layout (h : ObjectBody body l) : ∃ ls, Layout body ls := by
  obtain ⟨a, t, c, ha, ht, hc, rfl⟩ := h
  obtain ⟨ls, hls⟩ := valueText_layout ht
  exact ⟨_, Layout.quiet_append (quiet_ws ha) (hls.append (.last (quiet_ws hc)))⟩

/-- The literals of a text are texts of strings. -/
theorem bodyText_of_mem {t : Bytes} {ls : List Bytes} (h : Layout t ls) (hb : b ∈ ls) :
    ∃ es, BodyText b es := by
  induction h with
  | last hg => cases hb
  | lit hg hbody hrest ih =>
    obtain rfl | hb := List.mem_cons.1 hb
    · exact ⟨_, hbody⟩
    · exact ih hb

theorem mem_of_literalBehind {ls : List Bytes} (h : literalBehind name ls = some b) : b ∈ ls :=
  (List.dropWhile_sublist _).subset (List.mem_of_mem_drop (List.mem_of_head? h))

/-- A literal is read as a string, if it is written plainly or misread. -/
theorem take_bare_iff (hb : BodyText b es) (p : Bytes) :
    (bare b).take 256 = p ↔ ReadsAs (some b) p := by
  constructor
  · rintro rfl
    by_cases hplain : plainEscapes b = true ∧ (bare b).length ≤ 256
    · have heq := (bare_eq_decode_iff hb).2 hplain.1
      rw [List.take_of_length_le hplain.2, heq]
      exact .written hb hplain.1 (heq ▸ hplain.2)
    · exact .misread hplain
  · intro h
    cases h with
    | written hb' hplain hlen =>
      have heq := (bare_eq_decode_iff hb').2 hplain
      rw [← heq]
      exact List.take_of_length_le (heq ▸ hlen)
    | misread hmis => rfl

/-- What is read of a body is a string exactly if the literal behind the first mention of the name
reads as it. -/
theorem jsonFindString_eq_iff {p : Bytes} (hbody : ObjectBody body l) (hname : IsName name) :
    jsonFindString body (quoted name) = p ↔ ReadsAs (literalBehind name (literals body)) p := by
  obtain ⟨ls, hls⟩ := objectBody_layout hbody
  rw [jsonFindString_layout hname hls, hls.literals_eq]
  cases hbehind : literalBehind name ls with
  | none =>
    rw [Option.map_none, Option.getD_none]
    constructor
    · rintro rfl
      exact .absent
    · intro h
      cases h
      rfl
  | some b =>
    obtain ⟨es', hb⟩ := bodyText_of_mem hls (mem_of_literalBehind hbehind)
    exact take_bare_iff hb p

/-- The first mention is the literal that the text has in front of the one that is read. -/
theorem literalBehind_first {pre post : List Bytes} {key value : Bytes}
    (hpre : ∀ b ∈ pre, mentions name b = false) (hkey : mentions name key = true) :
    literalBehind name (pre ++ key :: value :: post) = some value := by
  unfold literalBehind
  rw [List.dropWhile_append_of_pos fun b hb => by rw [hpre b hb]; rfl,
    List.dropWhile_cons_of_neg (by rw [hkey]; exact Bool.false_ne_true)]
  rfl

/-- A literal that is too long to be read whole, or has other escapes, is misread only as a string
of 256 bytes if it is its own. -/
theorem readsAs_own_iff (hb : BodyText b es) (hlen : (decode es).length ≠ 256) :
    ReadsAs (some b) (decode es) ↔ plainEscapes b = true ∧ (decode es).length < 256 := by
  rw [← take_bare_iff hb]
  have hle := decode_length_le hb
  constructor
  · intro h
    have hcut := congrArg List.length h
    rw [List.length_take] at hcut
    have hshort : (bare b).length ≤ 256 := by omega
    rw [List.take_of_length_le hshort] at h
    exact ⟨(bare_eq_decode_iff hb).1 h, by omega⟩
  · rintro ⟨hplain, hlt⟩
    have heq := (bare_eq_decode_iff hb).2 hplain
    rw [heq]
    exact List.take_of_length_le hlt.le

/-- A string member is read right exactly if the literal behind the first mention of its name is
its string, plainly written within 256 bytes, or is misread as it. The member's literals are
neighbours, and where its key is the first mention only a string of 256 bytes can be misread as
itself. -/
theorem jsonFindString_member_iff (hbody : ObjectBody body l) (hmem : (k, Value.str es) ∈ l)
    (hname : decode k = lit "prompt" ∨ decode k = lit "session_id") :
    (jsonFindString body (quoted (decode k)) = decode es ↔
      ReadsAs (literalBehind (decode k) (literals body)) (decode es)) ∧
    ∃ pre key value post, literals body = pre ++ key :: value :: post ∧
      BodyText key k ∧ BodyText value es ∧
      ((∀ b ∈ pre, mentions (decode k) b = false) → mentions (decode k) key = true →
        (decode es).length ≠ 256 →
        (jsonFindString body (quoted (decode k)) = decode es ↔
          plainEscapes value = true ∧ (decode es).length < 256)) := by
  have hread := jsonFindString_eq_iff (p := decode es) hbody (isName_of hname)
  refine ⟨hread, ?_⟩
  obtain ⟨a, t, c, ha, ht, hc, rfl⟩ := hbody
  cases ht with
  | objNil hw => cases hmem
  | @obj t l hmembers =>
    obtain ⟨pre, key, value, post, hlayout, hkey, hvalue⟩ := member_layout hmembers hmem
    have hbrace : Layout [125] [] := Layout.nil.cons (by decide)
    have hall : Layout (a ++ (123 :: (t ++ [125]) ++ c)) (pre ++ key :: value :: post) := by
      have hopen := (hlayout.append (hbrace.append (.last (quiet_ws hc)))).cons
        (c := 123) (by decide)
      rw [List.append_nil, List.append_nil] at hopen
      rw [List.cons_append, List.append_assoc]
      exact hopen.quiet_append (quiet_ws ha)
    refine ⟨pre, key, value, post, hall.literals_eq, hkey, hvalue, fun hpre hfirst hlen => ?_⟩
    rw [hread, hall.literals_eq, literalBehind_first hpre hfirst]
    exact readsAs_own_iff hvalue hlen

end Reads

section Sample

def promptKey : List StrElem := (lit "prompt").map .byte

def quotedText : List StrElem := (lit "say \"hi\"").map .byte

def quotedBody : Bytes := lit "\x7b\"prompt\": \"say \\\"hi\\\"\"\x7d"

theorem quotedBody_object : ObjectBody quotedBody [(promptKey, .str quotedText)] := by
  have hread : readValue 10 quotedBody = some (.obj [(promptKey, .str quotedText)], []) := by
    decide +kernel
  obtain ⟨t, ht, hvalue⟩ := readValue_sound hread
  refine ⟨[], t, [], fun c hc => ?_, hvalue, fun c hc => ?_, ht⟩
  · cases hc
  · cases hc

/-- A prompt with quotes in it is read right. -/
theorem quotedBody_read :
    jsonFindString quotedBody (quoted (decode promptKey)) = decode quotedText := by
  have hname : decode promptKey = lit "prompt" ∨ decode promptKey = lit "session_id" :=
    Or.inl (by decide +kernel)
  refine (jsonFindString_member_iff quotedBody_object List.mem_cons_self hname).1.2 ?_
  have hread : readBody (lit "say \\\"hi\\\"\"") = some (quotedText, []) := by decide +kernel
  obtain ⟨b, hb, hbody⟩ := readBody_sound hread
  have hbehind : literalBehind (decode promptKey) (literals quotedBody) =
      some (lit "say \\\"hi\\\"") := by decide +kernel
  have hlit : lit "say \\\"hi\\\"\"" = lit "say \\\"hi\\\"" ++ [34] := by decide +kernel
  obtain rfl : lit "say \\\"hi\\\"" = b := List.append_cancel_right (hlit.symm.trans hb)
  rw [hbehind]
  exact .written hbody (by decide +kernel) (by decide +kernel)

/-- A prompt of two lines, and the one that it is taken for. -/
def linesBody : Bytes := lit "\x7b\"prompt\":\"a\\nb\"\x7d"

def letterBody : Bytes := lit "\x7b\"prompt\":\"anb\"\x7d"

/-- Two prompts that differ are read as one, and share key and fingerprint. -/
theorem linesBody_misread :
    (∃ l, ObjectBody linesBody l ∧ (promptKey, Value.str [.byte 97, .byte 10, .byte 98]) ∈ l) ∧
    (∃ l, ObjectBody letterBody l ∧ (promptKey, Value.str [.byte 97, .byte 110, .byte 98]) ∈ l) ∧
    jsonFindString linesBody (quoted (decode promptKey)) ≠ decode [.byte 97, .byte 10, .byte 98] ∧
    jsonFindString linesBody (quoted (decode promptKey)) =
      jsonFindString letterBody (quoted (decode promptKey)) ∧
    httpRequestCacheKey linesBody 1 = httpRequestCacheKey letterBody 2 ∧
    promptFingerprint linesBody [] = promptFingerprint letterBody [] := by
  have hlines : readValue 10 linesBody =
      some (.obj [(promptKey, .str [.byte 97, .byte 10, .byte 98])], []) := by decide +kernel
  have hletter : readValue 10 letterBody =
      some (.obj [(promptKey, .str [.byte 97, .byte 110, .byte 98])], []) := by decide +kernel
  have nil : Ws [] := fun c hc => by cases hc
  obtain ⟨t, ht, hvalue⟩ := readValue_sound hlines
  obtain ⟨t', ht', hvalue'⟩ := readValue_sound hletter
  exact ⟨⟨_, ⟨[], t, [], nil, hvalue, nil, ht⟩, List.mem_cons_self⟩,
    ⟨_, ⟨[], t', [], nil, hvalue', nil, ht'⟩, List.mem_cons_self⟩,
    by decide +kernel, by decide +kernel, by decide +kernel, by decide +kernel⟩

end Sample

end Ds4.Appliance.JsonBody
