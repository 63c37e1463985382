import EosShard.Found.Machine
import EosShard.V2.ConcurrentArchive

/-!
# A V2 writer that is used again

`finish` leaves the writer open: the records stay sorted, every blob table stays sorted by name, and
the running offset stays behind the record table, where the strings have just been written. The writer
takes further calls after it, and can be finished again.

* `finishWriter` is the writer after `finish`; with it `sessionStep` has a transition for every function
  of the writer.
* `Archive` says what a writer contains, in terms of the calls alone. A blob id keeps its meaning for
  good. A record id is a place in the array, and `finish` sorts the array (`Archive.finish`).
* `unwritten`: the writer without what `finish` fills in. No call depends on it, nor does the next
  `finish`, so every session is simulated by its archive (`session_refines`).
* `Stores.written`: however often it was finished before, a writer that is finished leaves the file of
  its archive.
-/

namespace EosShard.V2

open EosShard.Found

variable {env : Env}

/-! ## Sessions -/

/-- The writer after `finish`; the string table does not count for the running offset.
Source: `eos-shard-writer-v2.c`, `eos_shard_writer_v2_finish`. -/
def finishWriter (w : WriterV2) : WriterV2 :=
  { w with ctxOffset := (writeRecords (recordsStart w) (finishedRecords w)).2
           blobs := finishedBlobs w
           records := finishedRecords w }

/-- A call on the writer, or `finish`. -/
inductive SessionOp (env : Env)
  | call (op : Op env)
  | finish

/-- One step of a session. -/
def sessionStep (s : Shared) : SessionOp env → Option Shared
  | .call op => (step s.writer op).map fun p => ⟨p.1, applyWrites s.file p.2⟩
  | .finish => some ⟨finishWriter s.writer, applyWrites s.file (finish s.writer)⟩

/-- The calls of a session. -/
def callsOf (sops : List (SessionOp env)) : List (Op env) :=
  sops.filterMap fun sop => match sop with
    | .call op => some op
    | .finish => none

/-- A call at the end of a session is the last of its calls. -/
theorem callsOf_concat (sops : List (SessionOp env)) (op : Op env) :
    callsOf (sops ++ [.call op]) = callsOf sops ++ [op] := List.filterMap_append

/-- A finish is not a call. -/
theorem callsOf_finish (sops : List (SessionOp env)) : callsOf (sops ++ [.finish]) = callsOf sops := by
  rw [callsOf, List.filterMap_append]
  exact List.append_nil _

/-! ## What a writer contains -/

/-- The blobs in the order of their ids, and the records in the order of theirs, each with the ids of
its blobs. -/
structure Archive (env : Env) where
  blobs : List (AddBlob env)
  records : List (CString × List ℕ)
  accepted : ∀ c ∈ blobs, c.Accepted
  attached : ∀ r ∈ records, ∀ i ∈ r.2, i < blobs.length

namespace Archive

/-- The archive of a new writer. -/
def empty : Archive env := ⟨[], [], List.forall_mem_nil _, List.forall_mem_nil _⟩

/-- One more blob. -/
def addBlob (A : Archive env) (c : AddBlob env) (hc : c.Accepted) : Archive env where
  blobs := A.blobs ++ [c]
  records := A.records
  accepted := List.forall_mem_append.mpr ⟨A.accepted, List.forall_mem_singleton.mpr hc⟩
  attached := fun r hr i hi => by
    rw [List.length_append]
    exact Nat.lt_add_right _ (A.attached r hr i hi)

/-- One more record. -/
def addRecord (A : Archive env) (hexName : CString) : Archive env where
  blobs := A.blobs
  records := A.records ++ [(hexName, [])]
  accepted := A.accepted
  attached := List.forall_mem_append.mpr
    ⟨A.attached, List.forall_mem_singleton.mpr (List.forall_mem_nil _)⟩

/-- One more blob of the record at `recordId`. -/
def attach (A : Archive env) (recordId blobId : ℕ) (hi : blobId < A.blobs.length) : Archive env where
  blobs := A.blobs
  records := A.records.modify recordId fun r => (r.1, r.2 ++ [blobId])
  accepted := A.accepted
  attached := by
    intro r hr
    obtain ⟨k, hk, rfl⟩ := List.getElem_of_mem hr
    rw [List.length_modify] at hk
    rw [List.getElem_modify]
    have hold := A.attached _ (List.getElem_mem hk)
    split_ifs
    · exact List.forall_mem_append.mpr ⟨hold, List.forall_mem_singleton.mpr hi⟩
    · exact hold

/-- The order of the blobs of a record by their names. -/
def nameLe (A : Archive env) (i j : ℕ) : Prop :=
  (A.blobs.map (·.name)).getD i .empty ≤ (A.blobs.map (·.name)).getD j .empty

/-- The order of the names can be decided. -/
instance (A : Archive env) : DecidableRel A.nameLe := fun _ _ => inferInstanceAs (Decidable (_ ≤ _))

/-- The records sorted by raw name, and the blobs of each by name. The ids of the records move. -/
def finish (A : Archive env) : Archive env where
  blobs := A.blobs
  records := (A.records.insertionSort fun r s => (rawNameOf r.1).toList ≤ (rawNameOf s.1).toList).map
    fun r => (r.1, r.2.insertionSort A.nameLe)
  accepted := A.accepted
  attached := by
    intro r hr i hi
    obtain ⟨r₀, hr₀, rfl⟩ := List.mem_map.mp hr
    exact A.attached r₀ ((List.mem_insertionSort _).mp hr₀) i ((List.mem_insertionSort _).mp hi)

@[simp] theorem blobs_addBlob (A : Archive env) (c : AddBlob env) (hc : c.Accepted) :
    (A.addBlob c hc).blobs = A.blobs ++ [c] := rfl
@[simp] theorem records_addRecord (A : Archive env) (hexName : CString) :
    (A.addRecord hexName).records = A.records ++ [(hexName, [])] := rfl
@[simp] theorem records_attach (A : Archive env) (recordId blobId : ℕ) (hi : blobId < A.blobs.length) :
    (A.attach recordId blobId hi).records =
      A.records.modify recordId fun r => (r.1, r.2 ++ [blobId]) := rfl

/-- A finish keeps all records. -/
theorem length_records_finish (A : Archive env) : A.finish.records.length = A.records.length := by
  rw [finish, List.length_map, List.length_insertionSort]

/-- What one step does to the contents. -/
def step (A : Archive env) : SessionOp env → Option (Archive env)
  | .call (.addBlob c) => some (if hc : c.Accepted then A.addBlob c hc else A)
  | .call (.addRecord hexName) => some (A.addRecord hexName)
  | .call (.addBlobToRecord recordId blobId) =>
      if h : recordId < A.records.length ∧ blobId < A.blobs.length then
        some (A.attach recordId blobId h.2)
      else none
  | .finish => some A.finish

/-- The attachments, record after record. -/
def links (A : Archive env) : List (ℕ × ℕ) :=
  (A.records.mapIdx fun r p => p.2.map fun i => (r, i)).flatten

/-- The calls that make the archive in a new writer. -/
def ops (A : Archive env) : List (Op env) := archiveOps A.blobs (A.records.map (·.1)) A.links

end Archive

/-! ## What `finish` fills in -/

/-- The entry without the place of its header. -/
def BlobEntry.unwritten (b : BlobEntry) : BlobEntry := { b with offs := 0 }

/-- The entry without the place of its blob table. -/
def RecordEntry.unwritten (e : RecordEntry) : RecordEntry := { e with blobTableStart := 0 }

/-- The writer without what `finish` has filled in. -/
def WriterV2.unwritten (w : WriterV2) : WriterV2 :=
  { w with blobs := w.blobs.map BlobEntry.unwritten, records := w.records.map RecordEntry.unwritten }

@[simp] theorem unwritten_cpool (w : WriterV2) : w.unwritten.cpool = w.cpool := rfl
@[simp] theorem unwritten_blobs (w : WriterV2) :
    w.unwritten.blobs = w.blobs.map BlobEntry.unwritten := rfl
@[simp] theorem unwritten_records (w : WriterV2) :
    w.unwritten.records = w.records.map RecordEntry.unwritten := rfl

/-- No call depends on what `finish` has filled in. -/
theorem step_unwritten {w w' : WriterV2} {op : Op env} {ws : List Write}
    (h : step w op = some (w', ws)) : step w.unwritten op = some (w'.unwritten, ws) := by
  cases op with
  | addBlob c =>
      cases h
      by_cases hc : c.Accepted
      · simp only [step, addBlob_eq hc, WriterV2.unwritten, List.map_append]
        rfl
      · simp only [step, addBlob_rejected hc]
  | addRecord hexName =>
      cases h
      simp only [step, addRecord, WriterV2.unwritten, List.map_append]
      rfl
  | addBlobToRecord recordId blobId =>
      obtain ⟨w₁, hadd, hw₁⟩ := Option.map_eq_some_iff.mp h
      cases hw₁
      unfold addBlobToRecord at hadd
      split_ifs at hadd with hids
      cases hadd
      have hids' : recordId < w.unwritten.records.length ∧ blobId < w.unwritten.blobs.length := by
        rwa [unwritten_records, unwritten_blobs, List.length_map, List.length_map]
      have hmodify := map_modify (g := RecordEntry.unwritten)
        (fun e => { e with blobs := e.blobs ++ [blobId] })
        (fun e => { e with blobs := e.blobs ++ [blobId] }) (fun _ => rfl) w.records recordId
      rw [step, addBlobToRecord, if_pos hids']
      simp only [WriterV2.unwritten, hmodify, Option.map_some]

/-! ### The next `finish` does not depend on it -/

/-- Where a blob goes does not depend on where it was written before. -/
theorem writeBlobHeaders_unwritten (offset : ℕ) (bs : List BlobEntry) :
    writeBlobHeaders offset (bs.map BlobEntry.unwritten) = writeBlobHeaders offset bs := by
  induction bs generalizing offset with
  | nil => rfl
  | cons b bs ih => simp only [List.map_cons, writeBlobHeaders, ih, BlobEntry.unwritten]

/-- Where a blob table goes does not depend on where it was written before. -/
theorem writeBlobTables_unwritten (blobs : List BlobEntry) (offset : ℕ) (es : List RecordEntry) :
    writeBlobTables blobs offset (es.map RecordEntry.unwritten) = writeBlobTables blobs offset es := by
  induction es generalizing offset with
  | nil => rfl
  | cons e es ih =>
      have htable : writeBlobTable blobs offset e.unwritten = writeBlobTable blobs offset e := rfl
      simp only [List.map_cons, writeBlobTables, htable, ih]

/-- The order of the records does not depend on where their tables were written. -/
theorem sort_unwritten (es : List RecordEntry) :
    (es.insertionSort rawNameLe).map RecordEntry.unwritten =
      (es.map RecordEntry.unwritten).insertionSort rawNameLe :=
  List.map_insertionSort _ _ _ _ fun _ _ _ _ => Iff.rfl

/-- **`finish` writes the same**, whatever an earlier one has filled in. -/
theorem finish_unwritten (w : WriterV2) : finish w.unwritten = finish w := by
  simp only [finish, WriterV2.unwritten, writeBlobHeaders_unwritten, ← sort_unwritten,
    writeBlobTables_unwritten, List.length_map]

/-- A finish gives the blobs the same offsets, whatever an earlier one gave them. -/
theorem finishedBlobs_unwritten (w : WriterV2) : finishedBlobs w.unwritten = finishedBlobs w := by
  simp only [finishedBlobs, WriterV2.unwritten, writeBlobHeaders_unwritten]

/-- The blob tables start where they would start in a writer that was never finished. -/
theorem tablesStart_unwritten (w : WriterV2) : tablesStart w.unwritten = tablesStart w := by
  simp only [tablesStart, WriterV2.unwritten, writeBlobHeaders_unwritten]

/-- A finish gives the records the same tables, whatever an earlier one gave them. -/
theorem finishedRecords_unwritten (w : WriterV2) :
    finishedRecords w.unwritten = finishedRecords w := by
  simp only [finishedRecords, finishedBlobs_unwritten, tablesStart_unwritten, unwritten_records,
    ← sort_unwritten, writeBlobTables_unwritten]

/-- The records start where they would start in a writer that was never finished. -/
theorem recordsStart_unwritten (w : WriterV2) : recordsStart w.unwritten = recordsStart w := by
  simp only [recordsStart, finishedBlobs_unwritten, tablesStart_unwritten, unwritten_records,
    ← sort_unwritten, writeBlobTables_unwritten]

/-- The shard ends where that of a writer would end that was never finished. -/
theorem shardEnd_unwritten (w : WriterV2) : shardEnd w.unwritten = shardEnd w := by
  simp only [shardEnd, stringTableStart, recordsStart_unwritten, finishedRecords_unwritten,
    unwritten_cpool]

/-! ### What `finish` leaves -/

/-- A finish changes only the offsets of the blobs. -/
theorem map_unwritten_finishedBlobs (w : WriterV2) :
    (finishedBlobs w).map BlobEntry.unwritten = w.blobs.map BlobEntry.unwritten := by
  rw [finishedBlobs, writeBlobHeaders_eq]
  apply List.ext_getElem?
  intro i
  rw [List.getElem?_map, List.getElem?_mapIdx, List.getElem?_map]
  cases w.blobs[i]? <;> rfl

/-- A finish sorts the blobs of a record and changes its offset, nothing else. -/
theorem map_unwritten_writeBlobTables (blobs : List BlobEntry) (offset : ℕ) (es : List RecordEntry) :
    (writeBlobTables blobs offset es).1.map RecordEntry.unwritten = es.map fun e =>
      ⟨e.rawName, e.blobs.insertionSort (blobNameLe blobs), 0⟩ := by
  induction es generalizing offset with
  | nil => rfl
  | cons e es ih => simp only [writeBlobTables, List.map_cons, ih]; rfl

/-- The running offset only grows. -/
theorem le_ctxOffset_finishWriter (w : WriterV2) : w.ctxOffset ≤ (finishWriter w).ctxOffset := by
  obtain ⟨h₁, h₂, -⟩ := regions_le w
  refine h₁.trans (h₂.trans ?_)
  rw [finishWriter, writeRecords_eq]
  exact Nat.le_add_right _ _

/-! ## The simulation by the archive -/

/-- The entry of a record of the archive. -/
def recordEntryOf (r : CString × List ℕ) : RecordEntry := ⟨rawNameOf r.1, r.2, 0⟩

/-- Offsets fit into 32 bits, and no two contents have one checksum. -/
def Small (A : Archive env) (w : WriterV2) : Prop :=
  w.ctxOffset < 2 ^ 32 ∧ (poolBytes w.cpool.strings).length ≤ 2 ^ 32 ∧ CollisionFree A.blobs

/-- The writer has the entries of the archive, and the file has its data as long as all is small. -/
structure Stores (A : Archive env) (s : Shared) : Prop where
  history : History (A.blobs.map Op.addBlob) s.writer.unwritten []
  records : s.writer.unwritten.records = A.records.map recordEntryOf
  placed : Small A s.writer → Placed s.file (A.blobs.map Op.addBlob) s.writer.unwritten []

/-- The history of a writer, in terms of other calls with the same blobs. -/
theorem History.of_calls {ops ops' : List (Op env)} {w : WriterV2} {log : List Write}
    (h : History ops w log) (hcalls : calls ops = calls ops') : History ops' w [] where
  carries := hcalls ▸ h.carries
  pool := h.pool
  strings := hcalls ▸ h.strings
  header_le := h.header_le
  writesFrom := fun _ hx => absurd hx List.not_mem_nil
  table_le := h.table_le

/-- What leaves the data alone leaves it in place. -/
theorem Placed.carry {prev f : Bytes} {ops ops' : List (Op env)} {w w' : WriterV2}
    {log : List Write} (h : Placed prev ops w log) (hcalls : calls ops' = calls ops)
    (hblobs : w'.blobs = w.blobs) (htable : w'.csumToDataStart = w.csumToDataStart)
    (hpool : w'.cpool = w.cpool) (hoff : w.ctxOffset ≤ w'.ctxOffset)
    (hkeep : ∀ o d, Hdr.sizeof ≤ o → o + d.length ≤ w.ctxOffset →
      Holds (applyWrites prev log) o d → Holds f o d) : Placed f ops' w' [] := by
  have hpl : placements ops' w' = placements ops w := by
    unfold placements
    rw [hcalls, hblobs]
  refine ⟨⟨⟨?_, ?_⟩, ?_⟩, ?_, ?_⟩
  · rw [hpl]
    exact h.dataStart
  · rw [hpl, hpool]
    exact h.strings
  · rw [hpl]
    exact fun p hp => hkeep _ _ (h.bounds p hp).1 (h.bounds p hp).2 (h.holds p hp)
  · rw [hpl]
    exact fun p hp => ⟨(h.bounds p hp).1, (h.bounds p hp).2.trans hoff⟩
  · rw [hpl, htable]
    exact h.table

/-- A new writer has nothing. -/
theorem stores_new (prev : Bytes) : Stores (Archive.empty : Archive env) ⟨writerV2New, prev⟩ where
  history := history_new
  records := rfl
  placed := fun _ => ⟨⟨⟨List.Pairwise.nil, List.forall_mem_nil _⟩, List.forall_mem_nil _⟩,
    List.forall_mem_nil _, fun _ => rfl⟩

/-- Below 4 GiB the call fits. -/
theorem stepFits_of_lt {ops : List (Op env)} {w : WriterV2} {log : List Write}
    (hw : History ops w log) {c : AddBlob env} (hoff : w.ctxOffset < 2 ^ 32)
    (hpool : (poolBytes (poolSection w c).1.cpool.strings).length ≤ 2 ^ 32) :
    StepFits w (.addBlob c) := by
  obtain ⟨hok, hpre, -, -⟩ := constantPoolAdd_spec hw.pool c.name
  obtain ⟨-, hpre', -, -⟩ := constantPoolAdd_spec hok c.type
  refine fun _ => ⟨fun p hp => Or.inl ?_, fun hm => ?_, fun hm => ?_⟩
  · exact (hw.table_le _ p hp).trans_lt hoff
  · exact (poolOffset_lt hm).trans_le ((length_poolBytes_le_of_isPrefix (hpre.trans hpre')).trans hpool)
  · exact (poolOffset_lt hm).trans_le ((length_poolBytes_le_of_isPrefix hpre').trans hpool)

namespace Stores

variable {A : Archive env} {s : Shared}

/-- A blob is added. -/
theorem addBlob (h : Stores A s) {c : AddBlob env} (hc : c.Accepted) :
    Stores (A.addBlob c hc)
      ⟨(V2.addBlob s.writer c).1, applyWrites s.file (V2.addBlob s.writer c).2.1⟩ := by
  have hstep : V2.step s.writer.unwritten (.addBlob c) =
      some ((V2.addBlob s.writer c).1.unwritten, (V2.addBlob s.writer c).2.1) := step_unwritten rfl
  have hsame : V2.addBlob s.writer.unwritten c =
      ((V2.addBlob s.writer c).1.unwritten, (V2.addBlob s.writer c).2.1,
        (V2.addBlob s.writer.unwritten c).2.2) := by
    obtain ⟨h₁, h₂⟩ := Prod.mk.inj (Option.some.inj hstep)
    rw [← h₁, ← h₂]
  have hops : A.blobs.map Op.addBlob ++ [.addBlob c] = (A.addBlob c hc).blobs.map Op.addBlob := by
    rw [Archive.blobs_addBlob, List.map_append]
    rfl
  refine ⟨?_, ?_, fun hsmall => ?_⟩
  · rw [← hops]
    exact (h.history.step hstep).of_calls rfl
  · have hrecords : (V2.addBlob s.writer c).1.records = s.writer.records := by rw [addBlob_eq hc]
    rw [unwritten_records, hrecords, ← unwritten_records, h.records]
    rfl
  · obtain ⟨hoff, hpool, hcol⟩ := hsmall
    obtain ⟨hmono, hpre⟩ := step_mono h.history.pool hstep
    have hoff₀ : s.writer.ctxOffset < 2 ^ 32 := hmono.trans_lt hoff
    have hplaced := h.placed ⟨hoff₀, (length_poolBytes_le_of_isPrefix hpre).trans hpool, hcol.of_append⟩
    have hcalls : calls (A.blobs.map Op.addBlob) = A.blobs := calls_map_addBlob A.accepted
    have hfit : StepFits s.writer.unwritten (.addBlob c) := by
      refine stepFits_of_lt h.history hoff₀ ?_
      rw [addBlob_eq hc] at hpool
      exact hpool
    have hnext := hplaced.addBlob h.history (hoff₀.trans (by norm_num)) hc (by rwa [hcalls]) hfit
    rw [hsame, hops] at hnext
    exact hnext.carry rfl rfl rfl rfl (le_refl _) fun _ _ _ _ hd => hd

/-- A call that concerns no blob. -/
theorem other (h : Stores A s) {op : Op env} {w' : WriterV2} {ws : List Write}
    (hstep : V2.step s.writer op = some (w', ws)) (hcalls : calls [op] = []) {A' : Archive env}
    (hblobs : A'.blobs = A.blobs) (hrecords : w'.unwritten.records = A'.records.map recordEntryOf) :
    Stores A' ⟨w', applyWrites s.file ws⟩ := by
  have hstep' := step_unwritten hstep
  rcases step_cases hstep' with ⟨c, rfl, hc, -, -⟩ | ⟨-, rfl, hoff, hb, ht, hp⟩
  · rw [calls_addBlob hc] at hcalls
    cases hcalls
  · refine ⟨?_, hrecords, fun hsmall => ?_⟩
    · refine (h.history.step hstep').of_calls ?_
      rw [calls_append, hcalls, List.append_nil, hblobs]
    · obtain ⟨h₁, h₂, h₃⟩ := hsmall
      have hplaced := h.placed ⟨hoff ▸ h₁, by rw [← unwritten_cpool, ← hp]; exact h₂, hblobs ▸ h₃⟩
      refine hplaced.carry (by rw [hblobs]) hb ht hp hoff.ge fun _ _ _ _ hd => hd

/-- The writer has one record for each of the archive. -/
theorem length_records (h : Stores A s) : s.writer.records.length = A.records.length := by
  have hlen := congrArg List.length h.records
  rwa [unwritten_records, List.length_map, List.length_map] at hlen

/-- The writer has one blob for each of the archive. -/
theorem length_blobs (h : Stores A s) : s.writer.blobs.length = A.blobs.length := by
  have hlen := h.history.length_blobs
  rwa [calls_map_addBlob A.accepted, unwritten_blobs, List.length_map] at hlen

/-- A blob is attached to a record. -/
theorem attach (h : Stores A s) {recordId blobId : ℕ} (hi : blobId < A.blobs.length) {w' : WriterV2}
    (hadd : addBlobToRecord s.writer recordId blobId = some w') :
    Stores (A.attach recordId blobId hi) ⟨w', applyWrites s.file []⟩ := by
  have hstep : V2.step s.writer (.addBlobToRecord recordId blobId : Op env) = some (w', []) := by
    rw [V2.step, hadd]
    rfl
  refine h.other hstep rfl rfl ?_
  unfold addBlobToRecord at hadd
  split_ifs at hadd
  cases hadd
  -- the update of the entry is that of the record of the archive
  have hentry := map_modify (g := RecordEntry.unwritten)
    (fun e => { e with blobs := e.blobs ++ [blobId] })
    (fun e => { e with blobs := e.blobs ++ [blobId] }) (fun _ => rfl) s.writer.records recordId
  have hrecord := map_modify (g := recordEntryOf) (fun r => (r.1, r.2 ++ [blobId]))
    (fun e => { e with blobs := e.blobs ++ [blobId] }) (fun _ => rfl) A.records recordId
  rw [unwritten_records, hentry, ← unwritten_records, h.records, Archive.records_attach, hrecord]

/-- The names of the blobs, as `finish` compares them. -/
theorem name_finishedBlobs (h : Stores A s) (i : ℕ) :
    ((finishedBlobs s.writer).getD i default).name = (A.blobs.map (·.name)).getD i .empty := by
  have hcarries := h.history.carries
  rw [calls_map_addBlob A.accepted] at hcarries
  have hnames : (finishedBlobs s.writer).map (·.name) = A.blobs.map (·.name) := by
    have hfinished := congrArg (List.map BlobEntry.name) (map_unwritten_finishedBlobs s.writer)
    rw [List.map_map] at hfinished
    refine hfinished.trans ?_
    rw [← unwritten_blobs, ← List.forall₂_eq_eq_eq, List.forall₂_map_left_iff,
      List.forall₂_map_right_iff]
    exact (hcarries.imp fun _ _ hc => hc.name).flip
  rw [← hnames]
  exact (List.getD_map _ default BlobEntry.name).symm

/-- The writer is finished. -/
theorem finish (h : Stores A s) :
    Stores A.finish ⟨finishWriter s.writer, applyWrites s.file (V2.finish s.writer)⟩ := by
  have hblobs : (finishWriter s.writer).unwritten.blobs = s.writer.unwritten.blobs :=
    map_unwritten_finishedBlobs _
  have hoff : s.writer.unwritten.ctxOffset ≤ (finishWriter s.writer).unwritten.ctxOffset :=
    le_ctxOffset_finishWriter s.writer
  refine ⟨?_, ?_, fun hsmall => ?_⟩
  · refine ⟨?_, h.history.pool, h.history.strings, h.history.header_le.trans hoff,
      fun _ hx => absurd hx List.not_mem_nil, fun x p hp => (h.history.table_le x p hp).trans hoff⟩
    rw [hblobs]
    exact h.history.carries
  · have hsort : (A.records.insertionSort fun r t =>
        (rawNameOf r.1).toList ≤ (rawNameOf t.1).toList).map recordEntryOf =
        (A.records.map recordEntryOf).insertionSort rawNameLe :=
      List.map_insertionSort _ _ _ _ fun _ _ _ _ => Iff.rfl
    have htable : ∀ is : List ℕ, is.insertionSort (blobNameLe (finishedBlobs s.writer)) =
        is.insertionSort A.nameLe := by
      intro is
      have := List.map_insertionSort (blobNameLe (finishedBlobs s.writer)) A.nameLe id is
        fun i _ j _ => by
          unfold blobNameLe Archive.nameLe
          rw [h.name_finishedBlobs, h.name_finishedBlobs]
          rfl
      rwa [List.map_id, List.map_id] at this
    have hlhs : (finishedRecords s.writer).map RecordEntry.unwritten =
        ((s.writer.unwritten.records).insertionSort rawNameLe).map fun e =>
          ⟨e.rawName, e.blobs.insertionSort A.nameLe, 0⟩ := by
      rw [finishedRecords, map_unwritten_writeBlobTables, unwritten_records, ← sort_unwritten,
        List.map_map]
      exact List.map_congr_left fun e _ => by rw [htable]; rfl
    show (finishedRecords s.writer).map RecordEntry.unwritten = _
    rw [hlhs, h.records, ← hsort, Archive.finish, List.map_map, List.map_map]
    rfl
  · obtain ⟨h₁, h₂, h₃⟩ := hsmall
    have hkeep := (laidOut_finish s.file h.history.header_le).2
    rw [finish_unwritten] at hkeep
    exact (h.placed ⟨hoff.trans_lt h₁, h₂, h₃⟩).carry rfl hblobs rfl rfl hoff hkeep

/-- **One step of a session** is one step of the archive. -/
theorem step (h : Stores A s) {sop : SessionOp env} {s' : Shared} (hst : sessionStep s sop = some s') :
    ∃ A', A.step sop = some A' ∧ Stores A' s' := by
  cases sop with
  | finish =>
      cases hst
      exact ⟨_, rfl, h.finish⟩
  | call op =>
      obtain ⟨⟨w', ws⟩, hstep, rfl⟩ := Option.map_eq_some_iff.mp hst
      cases op with
      | addBlob c =>
          cases hstep
          refine ⟨_, rfl, ?_⟩
          by_cases hc : c.Accepted
          · rw [dif_pos hc]
            exact h.addBlob hc
          · rw [dif_neg hc, addBlob_rejected hc]
            exact h
      | addRecord hexName =>
          refine ⟨_, rfl, h.other hstep rfl rfl ?_⟩
          cases hstep
          rw [unwritten_records, addRecord, List.map_append, ← unwritten_records, h.records,
            Archive.records_addRecord, List.map_append]
          rfl
      | addBlobToRecord recordId blobId =>
          obtain ⟨w₁, hadd, he⟩ := Option.map_eq_some_iff.mp hstep
          cases he
          have hids : recordId < A.records.length ∧ blobId < A.blobs.length := by
            rw [← h.length_records, ← h.length_blobs]
            by_contra hout
            rw [addBlobToRecord, if_neg hout] at hadd
            cases hadd
          exact ⟨_, dif_pos hids, h.attach hids.2 hadd⟩

end Stores

/-- **Every session is simulated by its archive.** -/
theorem session_refines {prev : Bytes} {sops : List (SessionOp env)} {s : Shared}
    (hrun : runActions sessionStep ⟨writerV2New, prev⟩ sops = some s) :
    ∃ A, runActions Archive.step Archive.empty sops = some A ∧ Stores A s := by
  have hstep : ∀ (s : Shared) (A : Archive env) (sop : SessionOp env) (s' : Shared), Stores A s →
      sessionStep s sop = some s' → ∃ A', A.step sop = some A' ∧ Stores A' s' :=
    fun _ _ _ _ h hst => h.step hst
  exact runActions_simulation hstep (stores_new prev) hrun

/-! ## Reading back -/

namespace Archive

/-- The attachments of one record. -/
theorem filterMap_links (A : Archive env) (r : ℕ) :
    (A.links.filterMap fun l => if l.1 = r then some l.2 else none) =
      (A.records.map (·.2)).getD r [] := by
  rw [links]
  induction A.records using List.reverseRecOn with
  | nil => rfl
  | append_singleton rs p ih =>
      have hlast : ((p.2.map fun i => (rs.length, i)).filterMap fun l =>
          if l.1 = r then some l.2 else none) = if rs.length = r then p.2 else [] := by
        rw [List.filterMap_map]
        by_cases hr : rs.length = r
        · simp only [Function.comp_def, hr, if_true]
          exact List.filterMap_some
        · simp only [Function.comp_def, hr, if_false]
          exact List.filterMap_none _
      rw [List.mapIdx_concat, List.flatten_append, List.filterMap_append, ih, List.flatten_singleton,
        hlast, List.map_append, List.map_singleton]
      rcases lt_trichotomy r rs.length with hlt | rfl | hgt
      · rw [if_neg (by omega), List.append_nil, List.getD_append _ _ _ _ (by rwa [List.length_map])]
      · rw [if_pos rfl, List.getD_eq_default _ _ (by rw [List.length_map]), List.nil_append,
          List.getD_append_right _ _ _ _ (by rw [List.length_map]), List.length_map, Nat.sub_self]
        rfl
      · have hend : (rs.map (·.2)).length ≤ r := by
          rw [List.length_map]
          exact hgt.le
        have hbehind : ∀ x : List ℕ, (rs.map (·.2) ++ [x]).length ≤ r := by
          intro x
          rw [List.length_append, List.length_map]
          exact hgt
        rw [if_neg (by omega), List.append_nil, List.getD_eq_default _ _ hend,
          List.getD_eq_default _ _ (hbehind _)]

/-- The calls of an archive attach what its records have. -/
theorem attachedIds_ops (A : Archive env) (r : ℕ) :
    attachedIds A.ops r = (A.records.map (·.2)).getD r [] := by
  rw [ops, attachedIds_archiveOps, attachedIds, linkOps, List.filterMap_map, ← filterMap_links]
  rfl

/-- The calls of an archive add its blobs. -/
theorem calls_ops (A : Archive env) : calls A.ops = A.blobs := calls_archiveOps A.accepted _ _

/-- The calls of an archive add its records under their names. -/
theorem recordNames_ops (A : Archive env) : recordNames A.ops = A.records.map (·.1) :=
  recordNames_archiveOps _ _ _

/-- A link is between a record and a blob of the archive. -/
theorem mem_links {A : Archive env} {l : ℕ × ℕ} (hl : l ∈ A.links) :
    l.1 < A.records.length ∧ l.2 < A.blobs.length := by
  obtain ⟨ls, hls, hmem⟩ := List.mem_flatten.mp hl
  obtain ⟨k, hk, rfl⟩ := List.mem_mapIdx.mp hls
  obtain ⟨i, hi, rfl⟩ := List.mem_map.mp hmem
  exact ⟨hk, A.attached _ (List.getElem_mem hk) i hi⟩

/-- The calls of an archive are a run of a new writer. -/
theorem exists_run (A : Archive env) : ∃ w log, run writerV2New A.ops = some (w, log) := by
  refine exists_run_archiveOps A.accepted _ fun l hl => ?_
  rw [List.length_map]
  exact mem_links hl

end Archive

namespace Stores

variable {A : Archive env} {s : Shared}

/-- The records of the writer are those of the calls of the archive. -/
theorem recordsOk (h : Stores A s) : RecordsOk A.ops s.writer.unwritten := by
  constructor
  · rw [h.records, A.recordNames_ops]
    apply List.ext_getElem?
    intro r
    rw [List.getElem?_map, List.getElem?_mapIdx, List.getElem?_map]
    cases hr : A.records[r]? with
    | none => rfl
    | some p =>
        have hids : attachedIds A.ops r = p.2 := by
          rw [A.attachedIds_ops, List.getD_eq_getElem?_getD, List.getElem?_map, hr]
          rfl
        simp only [Option.map_some, recordEntryOf, archiveEntry, hids]
  · intro r i hi
    rw [A.attachedIds_ops, List.getD_eq_getElem?_getD, List.getElem?_map] at hi
    cases hr : A.records[r]? with
    | none =>
        rw [hr] at hi
        cases hi
    | some p =>
        rw [hr] at hi
        rw [h.records, List.length_map, unwritten_blobs, List.length_map, h.length_blobs]
        exact ⟨(List.getElem?_eq_some_iff.mp hr).1, A.attached p (List.mem_of_getElem? hr) i hi⟩

/-- **Finishing leaves the file of the archive.** -/
theorem written (h : Stores A s) (hend : shardEnd s.writer < 2 ^ 32)
    (hrec : A.records.length * Record.sizeof < 2 ^ 31) (hatt : ∀ r ∈ A.records, r.2.length ≤ 255)
    (hcol : CollisionFree A.blobs) :
    Written (applyWrites s.file (V2.finish s.writer)) A.ops s.writer.unwritten := by
  rw [← shardEnd_unwritten] at hend
  obtain ⟨h₁, h₂, -, h₃, h₄⟩ := regions_le s.writer.unwritten
  have hoff : s.writer.unwritten.ctxOffset < 2 ^ 32 := by omega
  have hpool : (poolBytes s.writer.unwritten.cpool.strings).length ≤ 2 ^ 32 := by
    unfold shardEnd at hend
    omega
  obtain ⟨hlaid, hkeep⟩ := laidOut_finish s.file h.history.header_le
  rw [finish_unwritten] at hlaid hkeep
  have hplaced := h.placed ⟨hoff, hpool, hcol⟩
  have hcalls : calls (A.blobs.map Op.addBlob) = A.blobs := calls_map_addBlob A.accepted
  refine ⟨hlaid, ?_, ?_, h.recordsOk, hend, ?_, fun r => ?_⟩
  · intro i c hc
    rw [A.calls_ops, ← hcalls] at hc
    obtain ⟨b, hb, hcarries⟩ := exists_getElem?_of_forall₂ h.history.carries hc
    have hmem : (c, b) ∈ placements (A.blobs.map Op.addBlob) s.writer.unwritten :=
      List.mem_of_getElem? (List.getElem?_zip_eq_some.mpr ⟨hc, hb⟩)
    obtain ⟨hname, htype⟩ := h.history.strings c (List.mem_of_getElem? hc)
    obtain ⟨hno, hco⟩ := hplaced.strings _ hmem
    obtain ⟨hlow, hhigh⟩ := hplaced.bounds _ hmem
    exact ⟨b, hb, hcarries, hname, htype, hno, hco, hhigh,
      hkeep _ _ hlow hhigh (hplaced.holds _ hmem)⟩
  · rw [A.calls_ops, unwritten_blobs, List.length_map, h.length_blobs]
  · rwa [h.records, List.length_map]
  · rw [A.attachedIds_ops, List.getD_eq_getElem?_getD, List.getElem?_map]
    cases hr : A.records[r]? with
    | none => exact Nat.zero_le _
    | some p => exact hatt p (List.mem_of_getElem? hr)

end Stores

/-- The blobs of the archive are those that the session has added. -/
theorem blobs_of_session {sops : List (SessionOp env)} {A : Archive env}
    (h : runActions Archive.step Archive.empty sops = some A) : A.blobs = calls (callsOf sops) := by
  refine runActions_rule (P := fun sops A => A.blobs = calls (callsOf sops)) rfl
    (fun sops A sop A' hA hstep => ?_) h
  cases sop with
  | finish =>
      cases hstep
      rw [callsOf_finish]
      exact hA
  | call op =>
      rw [callsOf_concat, calls_append, ← hA]
      cases op with
      | addRecord hexName =>
          cases hstep
          exact (List.append_nil _).symm
      | addBlob c =>
          cases hstep
          by_cases hc : c.Accepted
          · rw [dif_pos hc, calls_addBlob hc]
            rfl
          · rw [dif_neg hc]
            simp [calls, hc]
      | addBlobToRecord recordId blobId =>
          rw [Archive.step] at hstep
          split_ifs at hstep
          cases hstep
          exact (List.append_nil _).symm

end EosShard.V2
