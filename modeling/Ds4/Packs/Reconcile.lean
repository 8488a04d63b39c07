import Ds4.Packs.Index
import Ds4.Parts.Pairing

/-! Reconciling a pack with the tensors of the source file. -/
namespace Ds4.Packs

/-- `ds4_pack_source_tensor`. -/
structure SourceTensor where
  name : Bytes
  sourceDtype : Bytes
  sourceShape : Bytes
  sourceOffset : ℕ
  byteLength : ℕ

inductive RowStatus
  | missingPackRow
  | badOwningGpu
  | offsetOutOfRange
  | dtypeMismatch
  | shapeMismatch
  | offsetMismatch
  | byteLengthMismatch
  | ok
  deriving DecidableEq

def rowStatus (e : Option PackEntry) (s : SourceTensor) (sourceFileSize : ℕ) (nGpus : ℤ) :
    RowStatus :=
  match e with
  | none => .missingPackRow
  | some e =>
      if 0 < nGpus ∧ (e.owningGpu < 0 ∨ nGpus ≤ e.owningGpu) then .badOwningGpu
      else if sourceFileSize < e.sourceOffset ∨ sourceFileSize - e.sourceOffset < e.byteLength then
        .offsetOutOfRange
      else if e.sourceDtype ≠ s.sourceDtype then .dtypeMismatch
      else if e.sourceShape ≠ s.sourceShape then .shapeMismatch
      else if e.sourceOffset ≠ s.sourceOffset then .offsetMismatch
      else if e.byteLength ≠ s.byteLength then .byteLengthMismatch
      else .ok

/-- `ds4_pack_reconcile_summary`. -/
structure Summary where
  sourceTensors : ℕ
  packRows : ℕ
  okRows : ℕ
  failedRows : ℕ
  extraPackRows : ℕ

/-- A line of the report. -/
inductive ReportLine
  | row (e : PackEntry) (status : RowStatus)
  | missing (s : SourceTensor)
  | extra (e : PackEntry)

/-- The summary, the flags of the rows and the report, as far as the loops are. -/
structure Reconciling where
  matched : List Bool
  summary : Summary
  report : List ReportLine

namespace Reconciling

def start (p : Pack) (source : List SourceTensor) : Reconciling :=
  { matched := List.replicate p.entries.length false
    summary := ⟨source.length, p.entries.length, 0, 0, 0⟩
    report := [] }

/-- A tensor counts as good or as failed. -/
def count (sum : Summary) (status : RowStatus) : Summary :=
  if status = .ok then { sum with okRows := sum.okRows + 1 }
  else { sum with failedRows := sum.failedRows + 1 }

/-- The first loop, for one tensor. -/
def tensor (p : Pack) (size : ℕ) (nGpus : ℤ) (st : Reconciling) (s : SourceTensor) : Reconciling :=
  match p.findSourceName s.name with
  | none =>
      { st with
        summary := count st.summary (rowStatus none s size nGpus)
        report := st.report ++ [.missing s] }
  | some idx =>
      let e := p.entries[idx]?
      let status := rowStatus e s size nGpus
      { matched := st.matched.set idx true
        summary := count st.summary status
        report := st.report ++ e.toList.map (.row · status) }

/-- The second loop, for one row. -/
def row (st : Reconciling) (em : PackEntry × Bool) : Reconciling :=
  if em.2 then st
  else
    { st with
      summary := { st.summary with
        extraPackRows := st.summary.extraPackRows + 1
        failedRows := st.summary.failedRows + 1 }
      report := st.report ++ [.extra em.1] }

end Reconciling

def reconcileError (sum : Summary) : String :=
  "pack reconcile failed: ok=" ++ toString sum.okRows ++ " failed=" ++ toString sum.failedRows ++
    " extra=" ++ toString sum.extraPackRows

/-- `ds4_pack_reconcile`: the summary, the report and the error if there is one. -/
structure Reconciled where
  summary : Summary
  report : List ReportLine
  error : Option String

def reconcile (p : Pack) (source : List SourceTensor) (sourceFileSize : ℕ) (nGpus : ℤ) :
    Reconciled :=
  let tensors := source.foldl (Reconciling.tensor p sourceFileSize nGpus)
    (Reconciling.start p source)
  let st := (p.entries.zip tensors.matched).foldl Reconciling.row tensors
  { summary := st.summary
    report := st.report
    error :=
      if st.summary.failedRows ≠ 0 ∨ st.summary.extraPackRows ≠ 0 ∨
          st.summary.okRows ≠ st.summary.packRows then some (reconcileError st.summary)
      else none }

/-- A tensor and its row agree, the owner is one of the GPUs where their number is known, and the
range lies in the file. -/
structure Agrees (sourceFileSize : ℕ) (nGpus : ℤ) (s : SourceTensor) (e : PackEntry) : Prop where
  dtype : e.sourceDtype = s.sourceDtype
  shape : e.sourceShape = s.sourceShape
  offset : e.sourceOffset = s.sourceOffset
  length : e.byteLength = s.byteLength
  owner : 0 < nGpus → 0 ≤ e.owningGpu ∧ e.owningGpu < nGpus
  inside : e.sourceOffset + e.byteLength ≤ sourceFileSize

section Status
variable {p : Pack} {e : PackEntry} {s : SourceTensor} {size : ℕ} {nGpus : ℤ}

theorem rowStatus_ok_iff : rowStatus (some e) s size nGpus = .ok ↔ Agrees size nGpus s e := by
  constructor
  · intro h
    simp only [rowStatus] at h
    split_ifs at h with howner hrange hdtype hshape hoffset hlength
    rw [not_not] at hdtype hshape hoffset hlength
    refine ⟨hdtype, hshape, hoffset, hlength, ?_, by omega⟩
    intro hn
    omega
  · rintro ⟨hdtype, hshape, hoffset, hlength, howner, hin⟩
    have howner : ¬ (0 < nGpus ∧ (e.owningGpu < 0 ∨ nGpus ≤ e.owningGpu)) := by
      rintro ⟨hn, hout⟩
      have h := howner hn
      omega
    simp only [rowStatus]
    rw [if_neg howner, if_neg (by omega), if_neg (not_not.2 hdtype), if_neg (not_not.2 hshape),
      if_neg (not_not.2 hoffset), if_neg (not_not.2 hlength)]

instance : Decidable (Agrees size nGpus s e) := decidable_of_iff _ rowStatus_ok_iff

/-- The row of a name is the one place that has it. -/
theorem findSourceName_eq_some {name : Bytes} {i : ℕ} : p.findSourceName name = some i ↔
    ∃ h : i < p.entries.length, p.entries[i].sourceName = name := by
  rw [Pack.findSourceName, List.findIdx?_eq_some_iff_getElem]
  constructor
  · rintro ⟨h, hname, -⟩
    exact ⟨h, beq_iff_eq.1 hname⟩
  · rintro ⟨h, hname⟩
    refine ⟨h, beq_iff_eq.2 hname, ?_⟩
    intro j hj heq
    have hj' : j < p.entries.length := hj.trans h
    have hsame : p.entries[(⟨j, hj'⟩ : Fin _)].sourceName =
        p.entries[(⟨i, h⟩ : Fin _)].sourceName := (beq_iff_eq.1 heq).trans hname.symm
    have hplace := congrArg Fin.val (Parts.place_of_key p.names_nodup hsame)
    exact hj.ne hplace

end Status

/-- A tensor is good when the row of its name agrees. -/
def Good (p : Pack) (size : ℕ) (nGpus : ℤ) (s : SourceTensor) : Prop :=
  ∃ e ∈ p.entries, s.name = e.sourceName ∧ Agrees size nGpus s e

/-- A row is named by one of the tensors. -/
def Named (source : List SourceTensor) (e : PackEntry) : Prop :=
  ∃ s ∈ source, s.name = e.sourceName

section Loops
variable {p : Pack} {size : ℕ} {nGpus : ℤ}

instance (s : SourceTensor) : Decidable (Good p size nGpus s) := by
  unfold Good
  infer_instance

instance (source : List SourceTensor) (e : PackEntry) : Decidable (Named source e) := by
  unfold Named
  infer_instance

/-- What the first loop has found after some of all the tensors. -/
structure Found (p : Pack) (size : ℕ) (nGpus : ℤ) (all : ℕ) (source : List SourceTensor)
    (st : Reconciling) : Prop where
  matched : st.matched = p.entries.map fun e => decide (Named source e)
  ok : st.summary.okRows = source.countP fun s => Good p size nGpus s
  failed : st.summary.failedRows = source.countP fun s => ¬ Good p size nGpus s
  extra : st.summary.extraPackRows = 0
  sizes : st.summary.sourceTensors = all ∧ st.summary.packRows = p.entries.length

variable {all : ℕ} {source : List SourceTensor} {s : SourceTensor} {e : PackEntry}
  {st : Reconciling}

theorem named_append : Named (source ++ [s]) e ↔ Named source e ∨ s.name = e.sourceName := by
  unfold Named
  simp [or_and_right, exists_or]

/-- Setting the flag of one place is naming the row there. -/
theorem set_flags {i : ℕ} (h : i < p.entries.length) (hname : p.entries[i].sourceName = s.name) :
    (p.entries.map fun e => decide (Named source e)).set i true =
      p.entries.map fun e => decide (Named (source ++ [s]) e) := by
  apply List.ext_getElem
  · simp
  · intro j hj hj'
    have hlt : j < p.entries.length := by simpa using hj'
    rw [List.getElem_set, List.getElem_map, List.getElem_map]
    by_cases hij : i = j
    · subst hij
      have hnamed : Named (source ++ [s]) p.entries[i] := named_append.2 (Or.inr hname.symm)
      rw [if_pos rfl, decide_eq_true hnamed]
    · have hne : s.name ≠ p.entries[j].sourceName := by
        intro heq
        have hsame : p.entries[(⟨i, h⟩ : Fin _)].sourceName =
            p.entries[(⟨j, hlt⟩ : Fin _)].sourceName := hname.trans heq
        exact hij (congrArg Fin.val (Parts.place_of_key p.names_nodup hsame))
      rw [if_neg hij]
      simp [named_append, hne]

/-- A name no row has sets no flag. -/
theorem keep_flags (h : p.findSourceName s.name = none) :
    (p.entries.map fun e => decide (Named source e)) =
      p.entries.map fun e => decide (Named (source ++ [s]) e) := by
  apply List.map_congr_left
  intro e he
  have hne : s.name ≠ e.sourceName := by
    intro heq
    apply Pack.findSourceName_eq_none.1 h
    rw [heq]
    exact List.mem_map_of_mem he
  simp [named_append, hne]

theorem not_good_of_none (h : p.findSourceName s.name = none) : ¬ Good p size nGpus s := by
  rintro ⟨e, he, hname, -⟩
  apply Pack.findSourceName_eq_none.1 h
  rw [hname]
  exact List.mem_map_of_mem he

theorem good_iff_status {i : ℕ} (h : i < p.entries.length)
    (hname : p.entries[i].sourceName = s.name) :
    Good p size nGpus s ↔ rowStatus p.entries[i]? s size nGpus = .ok := by
  rw [List.getElem?_eq_getElem h, rowStatus_ok_iff]
  constructor
  · rintro ⟨e, he, hsame, hagrees⟩
    obtain ⟨j, hj, rfl⟩ := List.getElem_of_mem he
    have hkey : p.entries[(⟨i, h⟩ : Fin _)].sourceName =
        p.entries[(⟨j, hj⟩ : Fin _)].sourceName := hname.trans hsame
    obtain rfl := congrArg Fin.val (Parts.place_of_key p.names_nodup hkey)
    exact hagrees
  · intro hagrees
    exact ⟨_, List.getElem_mem h, hname.symm, hagrees⟩

/-- One tensor counts on its side. -/
theorem found_count (hf : Found p size nGpus all source st) {status : RowStatus}
    (hg : Good p size nGpus s ↔ status = .ok) {flags : List Bool} {report : List ReportLine}
    (hflags : flags = p.entries.map fun e => decide (Named (source ++ [s]) e)) :
    Found p size nGpus all (source ++ [s])
      ⟨flags, Reconciling.count st.summary status, report⟩ := by
  obtain ⟨-, hok, hfailed, hextra, hsizes⟩ := hf
  by_cases hst : status = .ok
  · have hgood : Good p size nGpus s := hg.2 hst
    refine ⟨hflags, ?_, ?_, ?_, ?_⟩ <;> simp only [Reconciling.count, if_pos hst]
    · simp [hok, hgood]
    · simp [hfailed, hgood]
    · exact hextra
    · exact hsizes
  · have hbad : ¬ Good p size nGpus s := fun h => hst (hg.1 h)
    refine ⟨hflags, ?_, ?_, ?_, ?_⟩ <;> simp only [Reconciling.count, if_neg hst]
    · simp [hok, hbad]
    · simp [hfailed, hbad]
    · exact hextra
    · exact hsizes

theorem found_step (hf : Found p size nGpus all source st) :
    Found p size nGpus all (source ++ [s]) (Reconciling.tensor p size nGpus st s) := by
  unfold Reconciling.tensor
  cases hfind : p.findSourceName s.name with
  | none =>
    apply found_count hf
    · apply iff_of_false (not_good_of_none hfind)
      intro h
      cases h
    · rw [hf.matched]
      exact keep_flags hfind
  | some i =>
    obtain ⟨hi, hname⟩ := findSourceName_eq_some.1 hfind
    apply found_count hf
    · exact good_iff_status hi hname
    · rw [hf.matched]
      exact set_flags hi hname

/-- The first loop: the flags are the named rows, the counters the good and the other tensors. -/
theorem found_all (p : Pack) (size : ℕ) (nGpus : ℤ) (all source : List SourceTensor) :
    Found p size nGpus all.length source
      (source.foldl (Reconciling.tensor p size nGpus) (Reconciling.start p all)) := by
  induction source using List.reverseRecOn with
  | nil =>
    refine ⟨?_, rfl, rfl, rfl, rfl, rfl⟩
    simp [Reconciling.start, Named]
  | append_singleton source s ih =>
    rw [List.foldl_append]
    exact found_step ih

/-- The second loop adds a failure for each row without a flag. -/
theorem extra_rows (rows : List PackEntry) (flag : PackEntry → Bool) : ∀ st : Reconciling,
    ((rows.zip (rows.map flag)).foldl Reconciling.row st).summary =
      { sourceTensors := st.summary.sourceTensors
        packRows := st.summary.packRows
        okRows := st.summary.okRows
        failedRows := st.summary.failedRows + rows.countP fun e => !flag e
        extraPackRows := st.summary.extraPackRows + rows.countP fun e => !flag e } := by
  induction rows with
  | nil =>
    intro st
    rfl
  | cons e rows ih =>
    intro st
    rw [List.map_cons, List.zip_cons_cons, List.foldl_cons, ih, List.countP_cons]
    cases hflag : flag e with
    | false =>
      simp [Reconciling.row]
      omega
    | true =>
      simp [Reconciling.row]

/-- The counters behind both loops. -/
theorem reconcile_summary (p : Pack) (source : List SourceTensor) (size : ℕ) (nGpus : ℤ) :
    (reconcile p source size nGpus).summary =
      { sourceTensors := source.length
        packRows := p.entries.length
        okRows := source.countP fun s => Good p size nGpus s
        failedRows := (source.countP fun s => ¬ Good p size nGpus s) +
          p.entries.countP fun e => ¬ Named source e
        extraPackRows := p.entries.countP fun e => ¬ Named source e } := by
  obtain ⟨hmatched, hok, hfailed, hextra, htensors, hrows⟩ := found_all p size nGpus source source
  have hflag : (fun e => !decide (Named source e)) = fun e => decide (¬ Named source e) := by
    funext e
    exact (decide_not (p := Named source e)).symm
  unfold reconcile
  simp only
  rw [hmatched, extra_rows, hflag, htensors, hrows, hok, hfailed, hextra, Nat.zero_add]

/-- The three counters upset exactly when a tensor or a row has no partner. -/
theorem counters_clean (source : List SourceTensor) :
    (reconcile p source size nGpus).error = none ↔
      source.length = p.entries.length ∧ (∀ s ∈ source, Good p size nGpus s) ∧
        ∀ e ∈ p.entries, Named source e := by
  have hsum := reconcile_summary p source size nGpus
  have herror : (reconcile p source size nGpus).error = none ↔
      (reconcile p source size nGpus).summary.failedRows = 0 ∧
      (reconcile p source size nGpus).summary.extraPackRows = 0 ∧
      (reconcile p source size nGpus).summary.okRows =
        (reconcile p source size nGpus).summary.packRows := by
    unfold reconcile
    simp only
    split_ifs with h
    · simp only [false_iff]
      tauto
    · push Not at h
      exact iff_of_true rfl h
  rw [herror, hsum]
  simp only [Nat.add_eq_zero_iff, List.countP_eq_zero, decide_eq_true_eq, not_not]
  constructor
  · rintro ⟨⟨hgood, hnamed⟩, -, hok⟩
    rw [List.countP_eq_length.2 (fun s hs => decide_eq_true (hgood s hs))] at hok
    exact ⟨hok, hgood, hnamed⟩
  · rintro ⟨hlen, hgood, hnamed⟩
    refine ⟨⟨hgood, hnamed⟩, hnamed, ?_⟩
    rw [List.countP_eq_length.2 fun s hs => decide_eq_true (hgood s hs)]
    exact hlen

/-- Success is a pairing of the tensors and the rows by name in which each pair agrees; the
counters split the tensors into good and failed ones and the rows into named and extra ones. -/
theorem reconcile_pairing (p : Pack) (source : List SourceTensor) (size : ℕ) (nGpus : ℤ) :
    ((reconcile p source size nGpus).error = none ↔
      Parts.Paired SourceTensor.name PackEntry.sourceName (Agrees size nGpus) source p.entries) ∧
    (reconcile p source size nGpus).summary =
      { sourceTensors := source.length
        packRows := p.entries.length
        okRows := source.countP fun s => Good p size nGpus s
        failedRows := (source.countP fun s => ¬ Good p size nGpus s) +
          p.entries.countP fun e => ¬ Named source e
        extraPackRows := p.entries.countP fun e => ¬ Named source e } := by
  constructor
  · rw [counters_clean, Parts.paired_iff p.names_nodup]
    rfl
  · exact reconcile_summary p source size nGpus

end Loops

end Ds4.Packs
