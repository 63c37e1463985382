import EosShard.V2.History
import EosShard.V2.Traversal
import EosShard.ShardFile

/-!
# What a run puts into a shard

The contents of a shard in terms of the calls alone, without the arrays of the writer: record `r`
is that of the `r`-th `add_record` call, and `attachedCalls ops r` are the blobs attached to it, in
the order of the `add_blob_to_record` calls.

* `records_of_run`: the writer's record array has just these.
* `RoundTrip` says what it means that an opened shard reads back as the archive of a run: the
  listing, the search, and every lookup in every record.
-/

namespace EosShard.V2

open EosShard.Found

variable {env : Env}

/-! ## The records of a run -/

/-- The names of the `add_record` calls. -/
def recordNames (ops : List (Op env)) : List CString :=
  ops.filterMap fun
    | .addRecord hexName => some hexName
    | _ => none

/-- The ids of the blobs attached to record `r`. -/
def attachedIds (ops : List (Op env)) (r : ℕ) : List ℕ :=
  ops.filterMap fun
    | .addBlobToRecord recordId blobId => if recordId = r then some blobId else none
    | _ => none

/-- The `add_blob` calls whose blobs are attached to record `r`. -/
def attachedCalls (ops : List (Op env)) (r : ℕ) : List (AddBlob env) :=
  (attachedIds ops r).filterMap fun i => (calls ops)[i]?

/-- The records of two runs, one after the other. -/
theorem recordNames_append (ops ops' : List (Op env)) :
    recordNames (ops ++ ops') = recordNames ops ++ recordNames ops' := List.filterMap_append

/-- The attachments of two runs, one after the other. -/
theorem attachedIds_append (ops ops' : List (Op env)) (r : ℕ) :
    attachedIds (ops ++ ops') r = attachedIds ops r ++ attachedIds ops' r := List.filterMap_append

/-- The record entry of record `r`. -/
def archiveEntry (ops : List (Op env)) (r : ℕ) (hexName : CString) : RecordEntry :=
  ⟨rawNameOf hexName, attachedIds ops r, 0⟩

/-- The writer's records are those of the calls, and only existing blobs are attached to existing
records. -/
structure RecordsOk (ops : List (Op env)) (w : WriterV2) : Prop where
  records : w.records = (recordNames ops).mapIdx (archiveEntry ops)
  attached : ∀ r, ∀ i ∈ attachedIds ops r, r < w.records.length ∧ i < w.blobs.length

/-- A step that attaches nothing does not change the entries. -/
theorem archiveEntry_append_other {ops : List (Op env)} {op : Op env}
    (h : ∀ r, attachedIds [op] r = []) : archiveEntry (ops ++ [op]) = archiveEntry ops := by
  funext r hexName
  rw [archiveEntry, attachedIds_append, h, List.append_nil, archiveEntry]

/-- `add_blob` keeps the records right. -/
theorem RecordsOk.addBlob {ops : List (Op env)} {w : WriterV2} (h : RecordsOk ops w)
    (c : AddBlob env) : RecordsOk (ops ++ [.addBlob c]) (addBlob w c).1 := by
  have hrec : (V2.addBlob w c).1.records = w.records := by
    by_cases hc : c.Accepted
    · rw [addBlob_eq hc]
    · rw [addBlob_rejected hc]
  have hlen : w.blobs.length ≤ (V2.addBlob w c).1.blobs.length := by
    by_cases hc : c.Accepted
    · rw [addBlob_eq hc]
      simp
    · rw [addBlob_rejected hc]
  constructor
  · rw [hrec, h.records, recordNames_append, archiveEntry_append_other fun _ => rfl]
    simp [recordNames]
  · intro r i hi
    rw [attachedIds_append] at hi
    obtain ⟨h₁, h₂⟩ := h.attached r i (by simpa [attachedIds] using hi)
    rw [hrec]
    exact ⟨h₁, h₂.trans_le hlen⟩

/-- `add_record` keeps the records right. -/
theorem RecordsOk.addRecord {ops : List (Op env)} {w : WriterV2} (h : RecordsOk ops w)
    (hexName : CString) : RecordsOk (ops ++ [.addRecord hexName]) (addRecord w hexName).1 := by
  have hlen : w.records.length = (recordNames ops).length := by
    rw [h.records, List.length_mapIdx]
  -- nothing has been attached to the new record yet
  have hnil : attachedIds ops (recordNames ops).length = [] := by
    rw [List.eq_nil_iff_forall_not_mem]
    intro i hi
    have := (h.attached _ i hi).1
    omega
  constructor
  · show w.records ++ [⟨rawNameOf hexName, [], 0⟩] = _
    rw [recordNames_append, archiveEntry_append_other fun _ => rfl, h.records]
    show _ = (recordNames ops ++ [hexName]).mapIdx (archiveEntry ops)
    rw [List.mapIdx_concat, archiveEntry, hnil]
  · intro r i hi
    rw [attachedIds_append] at hi
    obtain ⟨h₁, h₂⟩ := h.attached r i (by simpa [attachedIds] using hi)
    refine ⟨?_, h₂⟩
    show r < (w.records ++ [_]).length
    rw [List.length_append]
    exact Nat.lt_add_right _ h₁

/-- `add_blob_to_record` keeps the records right. -/
theorem RecordsOk.addBlobToRecord {ops : List (Op env)} {w w' : WriterV2} (h : RecordsOk ops w)
    {recordId blobId : ℕ} (hadd : addBlobToRecord w recordId blobId = some w') :
    RecordsOk (ops ++ [.addBlobToRecord recordId blobId]) w' := by
  unfold V2.addBlobToRecord at hadd
  split_ifs at hadd with hids
  cases hadd
  have hnames : recordNames (ops ++ [.addBlobToRecord recordId blobId]) = recordNames ops := by
    rw [recordNames_append]
    simp [recordNames]
  have hids' : ∀ r, attachedIds (ops ++ [.addBlobToRecord recordId blobId]) r =
      attachedIds ops r ++ if recordId = r then [blobId] else [] := by
    intro r
    rw [attachedIds_append]
    by_cases hr : recordId = r <;> simp [attachedIds, hr]
  constructor
  · rw [hnames]
    apply List.ext_getElem?
    intro r
    rw [h.records, List.getElem?_modify, List.getElem?_mapIdx, List.getElem?_mapIdx]
    cases (recordNames ops)[r]? with
    | none => rfl
    | some hexName =>
        simp only [Option.map_some, archiveEntry, hids']
        by_cases hr : recordId = r <;> simp [hr]
  · intro r i hi
    rw [hids'] at hi
    show r < (w.records.modify _ _).length ∧ i < w.blobs.length
    rw [List.length_modify]
    rcases List.mem_append.mp hi with hi | hi
    · exact h.attached r i hi
    · split_ifs at hi with hr
      · rw [List.mem_singleton.mp hi, ← hr]
        exact hids
      · cases hi

/-- Every step keeps the records right. -/
theorem RecordsOk.step {ops : List (Op env)} {w w' : WriterV2} {op : Op env} {ws : List Write}
    (h : RecordsOk ops w) (hst : step w op = some (w', ws)) : RecordsOk (ops ++ [op]) w' := by
  cases op with
  | addBlob c =>
      simp only [V2.step, Option.some.injEq, Prod.mk.injEq] at hst
      rw [← hst.1]
      exact h.addBlob c
  | addRecord hexName =>
      simp only [V2.step, Option.some.injEq, Prod.mk.injEq] at hst
      rw [← hst.1]
      exact h.addRecord hexName
  | addBlobToRecord recordId blobId =>
      simp only [V2.step, Option.map_eq_some_iff, Prod.mk.injEq] at hst
      obtain ⟨w₁, hadd, rfl, -⟩ := hst
      exact h.addBlobToRecord hadd

/-- The records of every run. -/
theorem records_of_run {ops : List (Op env)} {w : WriterV2} {log : List Write}
    (hrun : run writerV2New ops = some (w, log)) : RecordsOk ops w := by
  refine run_rule (P := fun ops w _ => RecordsOk ops w) ⟨rfl, by simp [attachedIds]⟩ ?_ hrun
  intro ops w log op w' ws _ ih h
  exact ih.step h

/-- Later calls add to the records that are there. -/
theorem RecordsOk.run {ops ops' : List (Op env)} {w w' : WriterV2} {log : List Write}
    (h : RecordsOk ops w) (hrun : run w ops' = some (w', log)) : RecordsOk (ops ++ ops') w' := by
  induction ops' generalizing ops w log with
  | nil =>
      cases hrun
      rwa [List.append_nil]
  | cons op ops' ih =>
      obtain ⟨w₁, ws₁, ws₂, h₁, h₂, -⟩ := run_cons_eq_some.mp hrun
      rw [List.append_cons]
      exact ih (h.step h₁) h₂

/-! ## Reading an archive back -/

/-- What a lookup answers when `c` is the first attached blob of the name: its blob, except that a
blob without data is `NULL`; and `NULL` when there is none. -/
def LookupReadsBack (f : Bytes) : Option (AddBlob env) → Option EosShardBlob → Prop
  | none, blob => blob = none
  | some c, blob =>
      if c.file.contents = [] then blob = none
      else ∃ b, blob = some b ∧ BlobReadsBack env f c.type c.file c.flags b

/-- The first blob of a name attached to record `r`. -/
def firstAttached (ops : List (Op env)) (r : ℕ) (name : CString) : Option (AddBlob env) :=
  (attachedCalls ops r).find? fun c => c.name = name

/-- A record object is that of record `r`: its name, and every lookup in it. -/
structure RecordReadsBack (f : Bytes) (impl : ShardFileImplV2) (ops : List (Op env)) (r : ℕ)
    (rec : EosShardRecord Record) : Prop where
  rawName : (recordNames ops)[r]?.map rawNameOf = some rec.rawName
  lookup : ∀ name : CString, name.chars.head? ≠ some 36 →
    LookupReadsBack f (firstAttached ops r name) (lookupBlob impl rec name)
  metadata : LookupReadsBack f (firstAttached ops r blobMetadata) rec.metadata
  data : LookupReadsBack f (firstAttached ops r blobData) rec.data

/-- An opened shard reads back as the archive of a run. -/
structure RoundTrip (f : Bytes) (impl : ShardFileImplV2) (ops : List (Op env)) : Prop where
  /-- The listing has every added record once, with everything attached to it, in the order of the
  raw names; the order is strict if no raw name was used twice. -/
  list : ∃ (order : List ℕ) (recs : List (EosShardRecord Record)),
    order.Perm (List.range (recordNames ops).length) ∧ listRecords impl = recs.map some ∧
      List.Forall₂ (RecordReadsBack f impl ops) order recs ∧
      recs.Pairwise (fun a b => a.rawName.toList ≤ b.rawName.toList) ∧
      (((recordNames ops).map rawNameOf).Nodup →
        recs.Pairwise fun a b => a.rawName.toList < b.rawName.toList)
  /-- A name that was not added is not found. -/
  find_none : ∀ x, findRecordByRawName impl x = none ↔ ∀ hexName ∈ recordNames ops,
    rawNameOf hexName ≠ x
  /-- A record that is found is a listed one of that name. -/
  find_some : ∀ x rec, findRecordByRawName impl x = some rec →
    rec.rawName = x ∧ some rec ∈ listRecords impl

end EosShard.V2
