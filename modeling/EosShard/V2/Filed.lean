import EosShard.V2.Archive
import EosShard.V2.Layout

/-!
# Reading a finished shard

What the reader finds in the file of a finished run, whatever the amount of data and whatever the file
contained before.

* `Filed f ops w`: the file has the layout of the writer `w`, the writer is that of the run, and the
  shard ends in the range of `off_t`. `filed_finish` establishes it.
* `Opened f w impl` is what a successful open leaves in `impl`, `Loaded f w impl` that the buffer has
  the whole record table.
* Reading goes from the outside in: the record table (`Filed.recordAt`), the blob tables and headers
  (`Filed.tableBlob`), the strings (`Filed.lookupStringConstant`), and the search of a blob table
  (`Filed.findBlob`).
-/

namespace EosShard.V2

open EosShard.Found

variable {env : Env}

/-! ## The strings of a run -/

/-- **The strings of every entry are in place** in every run, however much data there is. -/
theorem stringsPlaced_of_run {ops : List (Op env)} {w : WriterV2} {log : List Write}
    (hrun : run writerV2New ops = some (w, log)) : ∀ p ∈ placements ops w,
      StringsPlaced w.cpool p.1 p.2.sblob.nameOffs p.2.sblob.contentTypeOffs := by
  refine run_rule (P := fun ops w _ => ∀ p ∈ placements ops w,
    StringsPlaced w.cpool p.1 p.2.sblob.nameOffs p.2.sblob.contentTypeOffs) ?_ ?_ hrun
  · intro p hp
    cases hp
  · intro ops w log op w' ws hrun ih h p hp
    have hw := history_of_run hrun
    have hpre := (step_mono hw.pool h).2
    rcases step_cases h with ⟨c, rfl, hc, rfl, -⟩ | ⟨hcalls, -, -, hblobs, -, -⟩
    · rw [placements_addBlob hw hc] at hp
      rcases List.mem_append.mp hp with hp | hp
      · exact (ih p hp).mono hpre
      · rw [List.mem_singleton.mp hp, addBlob_eq hc]
        exact stringsPlaced_poolSection hw.pool c
    · have hpl : placements (ops ++ [op]) w' = placements ops w := by
        unfold placements
        rw [calls_append, hcalls, List.append_nil, hblobs]
      rw [hpl] at hp
      exact (ih p hp).mono hpre

/-! ## The file of a finished run -/

/-- The numbers of the records in the order of the table. -/
def tableOrder (ops : List (Op env)) : List ℕ :=
  (List.range (recordNames ops).length).insertionSort fun r s =>
    (rawNameOf ((recordNames ops).getD r .empty)).toList ≤
      (rawNameOf ((recordNames ops).getD s .empty)).toList

/-- Any two records can be ordered. -/
instance : Std.Total rawNameLe := ⟨fun _ _ => le_total _ _⟩

/-- The order of the records is transitive. -/
instance : IsTrans RecordEntry rawNameLe := ⟨fun _ _ _ => le_trans⟩

/-- The file of a finished run in the range of `off_t`, whatever the amount of data. -/
structure Filed (f : Bytes) (ops : List (Op env)) (w : WriterV2) : Prop where
  laidOut : LaidOut f w
  carries : List.Forall₂ Carries (calls ops) w.blobs
  strings : ∀ p ∈ placements ops w,
    StringsPlaced w.cpool p.1 p.2.sblob.nameOffs p.2.sblob.contentTypeOffs
  records : RecordsOk ops w
  end_lt : shardEnd w < 2 ^ 63

/-- **A finished run is filed**, whatever the file contained before. -/
theorem filed_finish (prev : Bytes) {ops : List (Op env)} {w : WriterV2} {log : List Write}
    (hrun : run writerV2New ops = some (w, log)) (hend : shardEnd w < 2 ^ 63) :
    Filed (applyWrites prev (log ++ finish w)) ops w := by
  have hw := history_of_run hrun
  have hlaid := (laidOut_finish (applyWrites prev log) hw.header_le).1
  rw [← applyWrites_append] at hlaid
  exact ⟨hlaid, hw.carries, stringsPlaced_of_run hrun, records_of_run hrun, hend⟩

/-! ## Opening -/

/-- An opened shard: the header is that of the writer, and the buffer has the record table from its
start on. -/
structure Opened (f : Bytes) (w : WriterV2) (impl : ShardFileImplV2) : Prop where
  fd : impl.fd = f
  hdr : impl.hdr = finishedHdr w
  records : impl.records = slice f (recordsStart w) impl.records.length

/-- The buffer has the whole record table. -/
structure Loaded (f : Bytes) (w : WriterV2) (impl : ShardFileImplV2) : Prop extends
    Opened f w impl where
  all : w.records.length * Record.sizeof ≤ impl.records.length

/-- The shard file as it is opened. -/
def implOf (f : Bytes) (w : WriterV2) : ShardFileImplV2 :=
  ⟨f, finishedHdr w, slice f (recordsStart w) (w.records.length * Record.sizeof)⟩

namespace LaidOut

variable {f : Bytes} {w : WriterV2}

/-- A shard in the range of `off_t` has a header that fits its struct. -/
theorem hdr_fits (hend : shardEnd w < 2 ^ 63) : (finishedHdr w).Fits := by
  obtain ⟨-, -, -, h₁, h₂⟩ := regions_le w
  rw [length_finishedRecords] at h₁
  have h₃ : w.records.length ≤ w.records.length * Record.sizeof := Nat.le_mul_of_pos_right _ (by norm_num)
  have h₄ : (finishedHdr w).recordsLength < 2 ^ 64 := by
    show w.records.length < 2 ^ 64
    omega
  have hflags : (finishedHdr w).flags < 2 ^ 16 := by
    show 0 < 2 ^ 16
    norm_num
  exact ⟨rfl, hflags, h₄, by show recordsStart w < 2 ^ 64; omega,
    by show stringTableStart w < 2 ^ 64; omega⟩

/-- The header that an open reads. -/
theorem headerOf_eq (h : LaidOut f w) (hend : shardEnd w < 2 ^ 63) : headerOf f = finishedHdr w := by
  rw [headerOf, h.hdr.slice_eq (Hdr.length_toBytes rfl).symm, Hdr.ofBytes_toBytes (hdr_fits hend)]

/-- Whatever an open loads. -/
theorem opened (h : LaidOut f w) (hend : shardEnd w < 2 ^ 63) {impl : ShardFileImplV2}
    (hopen : V2.implV2New f = .ok impl) : Opened f w impl := by
  rcases implV2New_cases f with ⟨-, he⟩ | ⟨-, -, he⟩ | ⟨-, -, -, he⟩ | ⟨-, -, records, hp, he⟩
  · rw [he] at hopen
    cases hopen
  · rw [he] at hopen
    cases hopen
  · rw [he] at hopen
    cases hopen
  · rw [he] at hopen
    cases hopen
    obtain ⟨-, -, -, h₁, h₂⟩ := regions_le w
    have hstart : (finishedHdr w).recordsStart % 2 ^ 64 = recordsStart w :=
      Nat.mod_eq_of_lt (show recordsStart w < 2 ^ 64 by omega)
    rw [h.headerOf_eq hend, preadExact_eq_some_iff, hstart] at hp
    refine ⟨rfl, h.headerOf_eq hend, ?_⟩
    show records = slice f (recordsStart w) records.length
    rw [hp.2.2]
    exact hp.2.1.symm

/-- The record table lies in the file. -/
theorem length_slice_records (h : LaidOut f w) :
    (slice f (recordsStart w) (w.records.length * Record.sizeof)).length =
      w.records.length * Record.sizeof := by
  have hflat : ((finishedRecords w).map fun e => e.srecord.toBytes).flatten.length =
      w.records.length * Record.sizeof := by
    rw [length_flatten_map_of_forall fun e _ => Record.length_toBytes e.srecord,
      length_finishedRecords]
  rw [h.records.slice_eq hflat.symm, hflat]

/-- The open of the whole table. -/
theorem loaded_implOf (h : LaidOut f w) : Loaded f w (implOf f w) where
  fd := rfl
  hdr := rfl
  records := by
    show slice f _ _ = slice f _ (slice f _ _).length
    rw [h.length_slice_records]
  all := h.length_slice_records.ge

/-- The open succeeds. -/
theorem implV2New (h : LaidOut f w) (hend : shardEnd w < 2 ^ 63)
    (hrec : w.records.length * Record.sizeof < 2 ^ 31) : implV2New f = .ok (implOf f w) := by
  obtain ⟨-, -, -, h₁, h₂⟩ := regions_le w
  have hlen : (slice f 0 Hdr.sizeof).length = Hdr.sizeof := by
    rw [h.hdr.slice_eq (Hdr.length_toBytes rfl).symm, Hdr.length_toBytes rfl]
  have hbuf : bufSizeOf (finishedHdr w) = (w.records.length * Record.sizeof : ℕ) :=
    bufSizeOf_of_lt hrec
  have hpread : pread f (w.records.length * Record.sizeof) (finishedHdr w).recordsStart =
      some (slice f (recordsStart w) (w.records.length * Record.sizeof)) :=
    pread_eq (show recordsStart w < 2 ^ 63 by omega)
  rw [implV2New_eq, h.headerOf_eq hend, hbuf, Int.toNat_natCast, hpread]
  simp only [hlen, h.length_slice_records, ne_eq, not_true_eq_false, if_false]
  rw [if_neg (by simp [finishedHdr]), if_neg (by omega)]
  rfl

/-- The file starts with the header. -/
theorem hasHeader (h : LaidOut f w) (hend : shardEnd w < 2 ^ 63) : HasHeader f := by
  refine ⟨?_, by rw [h.headerOf_eq hend]; rfl⟩
  rw [h.hdr.slice_eq (Hdr.length_toBytes rfl).symm, Hdr.length_toBytes rfl]

/-- The size of the buffer for the records, an `int`. -/
theorem bufSizeOf_headerOf (h : LaidOut f w) (hend : shardEnd w < 2 ^ 63) :
    bufSizeOf (headerOf f) = asInt32 (w.records.length * Record.sizeof) := by
  obtain ⟨-, -, -, h₁, h₂⟩ := regions_le w
  rw [length_finishedRecords] at h₁
  have hlt : w.records.length * Record.sizeof < 2 ^ 64 := by omega
  rw [h.headerOf_eq hend, bufSizeOf]
  exact congrArg asInt32 (Nat.mod_eq_of_lt hlt)

/-- A table whose size is cut to a negative `int` ends the process. -/
theorem implV2New_eq_abort (h : LaidOut f w) (hend : shardEnd w < 2 ^ 63)
    (hneg : asInt32 (w.records.length * Record.sizeof) < 0) : V2.implV2New f = .error .abort := by
  obtain ⟨hlen, hmagic⟩ := h.hasHeader hend
  rw [implV2New_eq, if_neg (not_not.mpr hlen), if_neg (not_not.mpr hmagic), h.bufSizeOf_headerOf hend,
    if_pos hneg]

/-- **The open succeeds exactly if the size of the table does not become negative as an `int`**, which it
does not below `2 ^ 31` bytes. From `2 ^ 32` bytes on the table that is loaded can be cut. -/
theorem implV2New_isOk_iff (h : LaidOut f w) (hend : shardEnd w < 2 ^ 63) :
    (∃ impl, V2.implV2New f = .ok impl) ↔ 0 ≤ asInt32 (w.records.length * Record.sizeof) := by
  rcases implV2New_cases f with ⟨hno, -⟩ | ⟨-, hneg, habort⟩ | ⟨-, hpos, hnone, -⟩ | ⟨-, hpos, _, -, hok⟩
  · exact absurd (h.hasHeader hend) hno
  · rw [h.bufSizeOf_headerOf hend] at hneg
    refine iff_of_false ?_ (not_le.mpr hneg)
    rintro ⟨impl, hok⟩
    rw [habort] at hok
    cases hok
  · -- what is asked for is a part of the table, which lies in the file
    exfalso
    obtain ⟨-, -, -, h₁, h₂⟩ := regions_le w
    rw [h.bufSizeOf_headerOf hend] at hpos hnone
    have hle := le_of_le_asInt32 (Int.toNat_of_nonneg hpos).le
    have hlen := h.length_slice_records
    have hstart : (headerOf f).recordsStart % 2 ^ 64 = recordsStart w := by
      rw [h.headerOf_eq hend]
      exact Nat.mod_eq_of_lt (show recordsStart w < 2 ^ 64 by omega)
    have hread : (slice f (recordsStart w) (asInt32 (w.records.length * Record.sizeof)).toNat).length =
        (asInt32 (w.records.length * Record.sizeof)).toNat := by
      rw [length_slice] at hlen ⊢
      exact min_eq_left (hle.trans (min_eq_left_iff.mp hlen))
    rw [preadExact_eq_some_iff.mpr ⟨by omega, rfl, by rwa [hstart]⟩] at hnone
    cases hnone
  · rw [h.bufSizeOf_headerOf hend] at hpos
    exact iff_of_true ⟨_, hok⟩ hpos

/-- The header of blob `i`. -/
theorem holds_header (h : LaidOut f w) {i : ℕ} {b : BlobEntry} (hb : w.blobs[i]? = some b) :
    Holds f (w.ctxOffset + i * Blob.sizeof) b.sblob.toBytes := by
  refine h.blobs.piece (fun p hp => ?_) ?_
  · obtain ⟨b', -, rfl⟩ := List.mem_map.mp hp
    exact Blob.length_toBytes _
  · rw [List.getElem?_map, hb]
    rfl

/-- Record `k` of the table. -/
theorem holds_record (h : LaidOut f w) {k : ℕ} {e : RecordEntry} (he : (finishedRecords w)[k]? = some e) :
    Holds f (recordsStart w + k * Record.sizeof) e.srecord.toBytes := by
  refine h.records.piece (fun p hp => ?_) ?_
  · obtain ⟨e', -, rfl⟩ := List.mem_map.mp hp
    exact Record.length_toBytes _
  · rw [List.getElem?_map, he]
    rfl

/-- The probe takes the file for a V2 shard. -/
theorem detectVersion_eq (h : LaidOut f w) (gv : V1.GVariantFormat) (heap : Heap) :
    detectVersion gv heap f = (V2.implV2New f).map .v2 := detectVersion_of_v2Hdr h.hdr rfl rfl

end LaidOut

namespace Filed

variable {f : Bytes} {ops : List (Op env)} {w : WriterV2} {impl : ShardFileImplV2}

/-- The regions of a filed shard lie within `off_t`. -/
theorem bounds (h : Filed f ops w) :
    w.ctxOffset + w.blobs.length * Blob.sizeof < 2 ^ 63 ∧ recordsStart w < 2 ^ 63 ∧
      stringTableStart w + (poolBytes w.cpool.strings).length < 2 ^ 63 := by
  obtain ⟨-, h₂, -, h₃, h₄⟩ := regions_le w
  have hts : tablesStart w = w.ctxOffset + w.blobs.length * Blob.sizeof := by
    rw [tablesStart, writeBlobHeaders_eq]
  have hend : stringTableStart w + (poolBytes w.cpool.strings).length < 2 ^ 63 := h.end_lt
  rw [← hts]
  omega

/-- The writer has an entry for each accepted call. -/
theorem length_blobs (h : Filed f ops w) : w.blobs.length = (calls ops).length :=
  h.carries.length_eq.symm

/-- The writer has an entry for each record. -/
theorem length_records (h : Filed f ops w) : w.records.length = (recordNames ops).length := by
  rw [h.records.records, List.length_mapIdx]

/-- The entry of a call. -/
theorem entry (h : Filed f ops w) {i : ℕ} {c : AddBlob env} (hc : (calls ops)[i]? = some c) :
    ∃ b, w.blobs[i]? = some b ∧ Carries c b ∧ (c, b) ∈ placements ops w := by
  obtain ⟨b, hb, hcarries⟩ := exists_getElem?_of_forall₂ h.carries hc
  exact ⟨b, hb, hcarries, List.mem_of_getElem? (List.getElem?_zip_eq_some.mpr ⟨hc, hb⟩)⟩

/-! ## The record table -/

/-- A finished record fits its struct. -/
theorem srecord_fits (h : Filed f ops w) {e : RecordEntry} (he : e ∈ finishedRecords w) :
    e.srecord.Fits := by
  obtain ⟨-, hrs, -⟩ := h.bounds
  have hle := (regions_le w).2.2.1 e he
  refine ⟨show 0 < 2 ^ 32 by norm_num, Nat.mod_lt _ (by norm_num), ?_⟩
  show e.blobTableStart < 2 ^ 64
  omega

/-- A record that was loaded is the one that was written. -/
theorem recordAt (h : Filed f ops w) (ho : Opened f w impl) {k : ℕ} {e : RecordEntry}
    (he : (finishedRecords w)[k]? = some e) (hk : (k + 1) * Record.sizeof ≤ impl.records.length) :
    recordAt impl k = e.srecord := by
  have hheld := h.laidOut.holds_record he
  have hin : k * Record.sizeof + Record.sizeof ≤ impl.records.length := by
    rwa [← Nat.succ_mul]
  unfold V2.recordAt
  rw [ho.records, slice_slice hin, hheld.slice_eq (Record.length_toBytes _).symm,
    Record.ofBytes_toBytes (h.srecord_fits (List.mem_of_getElem? he))]

/-! ## Blob tables and headers -/

/-- An entry that has been finished has the offset of its header. -/
theorem finishedBlobs_getD (w : WriterV2) {i : ℕ} {b : BlobEntry} (hb : w.blobs[i]? = some b) :
    (finishedBlobs w).getD i default = { b with offs := w.ctxOffset + i * Blob.sizeof } := by
  rw [finishedBlobs, writeBlobHeaders_eq, List.getD_eq_getElem?_getD, List.getElem?_mapIdx, hb]
  rfl

/-- Entry `j` of a blob table. -/
theorem holds_entry {e e' : RecordEntry} (ht : TableWritten f (finishedBlobs w) e e') {j i : ℕ}
    {b : BlobEntry} (hj : (e.blobs.insertionSort (blobNameLe (finishedBlobs w)))[j]? = some i)
    (hb : w.blobs[i]? = some b) :
    Holds f (e'.blobTableStart + j * RecordBlobTableEntry.sizeof)
      (⟨w.ctxOffset + i * Blob.sizeof⟩ : RecordBlobTableEntry).toBytes := by
  refine ht.holds.piece (fun p hp => ?_) ?_
  · obtain ⟨i', -, rfl⟩ := List.mem_map.mp hp
    exact RecordBlobTableEntry.length_toBytes _
  · rw [tablePieces, List.getElem?_map, hj, Option.map_some, finishedBlobs_getD w hb]

/-- The call and the entry of an attached id. -/
theorem attached_entry (h : Filed f ops w) {r i : ℕ} (hi : i ∈ attachedIds ops r) :
    ∃ c b, (calls ops)[i]? = some c ∧ w.blobs[i]? = some b ∧ Carries c b ∧
      (c, b) ∈ placements ops w ∧ ((finishedBlobs w).getD i default).name = c.name := by
  have hlt := (h.records.attached r i hi).2
  rw [h.length_blobs] at hlt
  have hc := List.getElem?_eq_getElem hlt
  obtain ⟨b, hb, hcarries, hp⟩ := h.entry hc
  refine ⟨_, b, hc, hb, hcarries, hp, ?_⟩
  rw [finishedBlobs_getD w hb]
  exact hcarries.name

/-- The names of the attached blobs. -/
theorem names_attachedCalls (h : Filed f ops w) {r : ℕ} :
    (attachedCalls ops r).map (fun c => c.name) =
      (attachedIds ops r).map fun i => ((finishedBlobs w).getD i default).name := by
  unfold attachedCalls
  rw [List.map_filterMap, List.filterMap_eq_map_iff_forall_eq_some]
  intro i hi
  obtain ⟨c, b, hc, -, -, -, hname⟩ := h.attached_entry hi
  rw [hc, Option.map_some, hname]

/-- The first blob of a name, in terms of the ids. -/
theorem firstAttached_eq (h : Filed f ops w) (r : ℕ) (name : CString) :
    firstAttached ops r name = ((attachedIds ops r).find? fun i =>
      ((finishedBlobs w).getD i default).name = name).bind fun i => (calls ops)[i]? := by
  unfold firstAttached attachedCalls
  rw [List.find?_filterMap]
  congr 1
  refine List.find?_congr fun i hi => ?_
  obtain ⟨c, b, hc, -, -, -, hname⟩ := h.attached_entry hi
  rw [hc, Option.any_some, hname]

/-- The header of blob `i`. -/
theorem preadExact_header (h : Filed f ops w) {i : ℕ} {b : BlobEntry} (hb : w.blobs[i]? = some b) :
    preadExact f Blob.sizeof ((finishedBlobs w).getD i default).offs = some b.sblob.toBytes := by
  obtain ⟨hoff, -, -⟩ := h.bounds
  have hi := (List.getElem?_eq_some_iff.mp hb).1
  have hi76 : i * Blob.sizeof ≤ w.blobs.length * Blob.sizeof := Nat.mul_le_mul_right _ hi.le
  rw [finishedBlobs_getD w hb]
  exact (h.laidOut.holds_header hb).preadExact (Blob.length_toBytes _).symm (by omega)

/-- Entry `j` of a blob table leads to the header of its blob. -/
theorem tableBlob (h : Filed f ops w) (ho : Opened f w impl) {e e' : RecordEntry}
    (ht : TableWritten f (finishedBlobs w) e e') (he : e' ∈ finishedRecords w) {j i : ℕ}
    {b : BlobEntry} (hj : (e.blobs.insertionSort (blobNameLe (finishedBlobs w)))[j]? = some i)
    (hb : w.blobs[i]? = some b) : tableBlob impl e'.srecord j = some b.sblob.reread := by
  obtain ⟨hoff, hrs, -⟩ := h.bounds
  have hi := (List.getElem?_eq_some_iff.mp hb).1
  have hi76 : i * Blob.sizeof ≤ w.blobs.length * Blob.sizeof := Nat.mul_le_mul_right _ hi.le
  have hend := (regions_le w).2.2.1 e' he
  have hj' := (List.getElem?_eq_some_iff.mp hj).1
  rw [← ht.blobs] at hj'
  have hj8 : j * RecordBlobTableEntry.sizeof ≤ e'.blobs.length * RecordBlobTableEntry.sizeof :=
    Nat.mul_le_mul_right _ hj'.le
  have hread₁ := (holds_entry ht hj hb).preadExact (n := RecordBlobTableEntry.sizeof)
    (RecordBlobTableEntry.length_toBytes _).symm (by omega)
  have hread₂ := h.preadExact_header hb
  rw [finishedBlobs_getD w hb] at hread₂
  have hback : RecordBlobTableEntry.ofBytes
      (⟨w.ctxOffset + i * Blob.sizeof⟩ : RecordBlobTableEntry).toBytes =
        ⟨w.ctxOffset + i * Blob.sizeof⟩ :=
    RecordBlobTableEntry.ofBytes_toBytes (show w.ctxOffset + i * Blob.sizeof < 2 ^ 64 by omega)
  have hstart : e'.srecord.blobTableStart = e'.blobTableStart := rfl
  unfold V2.tableBlob
  rw [ho.fd, hstart, hread₁, Option.bind_eq_bind, Option.bind_some, hback, hread₂, Option.bind_some]
  rfl

/-- The number of entries goes through eight bits. -/
theorem blobTableLength_eq {r : ℕ} {hexName : CString} {e' : RecordEntry}
    (ht : TableWritten f (finishedBlobs w) (archiveEntry ops r hexName) e') :
    e'.srecord.blobTableLength = (attachedIds ops r).length % 2 ^ 8 := by
  have hlen : e'.blobs.length = (attachedIds ops r).length := by
    rw [ht.blobs, List.length_insertionSort]
    rfl
  show e'.blobs.length % 2 ^ 8 = _
  rw [hlen]

/-- Entry `j` of the blob table of record `r`. -/
theorem tableBlob_attached (h : Filed f ops w) (ho : Opened f w impl) {r : ℕ} {hexName : CString}
    {e' : RecordEntry} (ht : TableWritten f (finishedBlobs w) (archiveEntry ops r hexName) e')
    (he : e' ∈ finishedRecords w) {j i : ℕ}
    (hj : ((attachedIds ops r).insertionSort (blobNameLe (finishedBlobs w)))[j]? = some i) :
    V2.tableBlob impl e'.srecord j = some ((finishedBlobs w).getD i default).sblob.reread := by
  have hmem := (List.mem_insertionSort _).mp (List.mem_of_getElem? hj)
  have hb := List.getElem?_eq_getElem (h.records.attached r i hmem).2
  rw [h.tableBlob ho ht he hj hb, finishedBlobs_getD w hb]

/-! ## Strings -/

/-- A string of the pool is read back, cut to what the buffer has room for in front of its NUL. -/
theorem lookupStringConstant (h : Filed f ops w) (ho : Opened f w impl) {S : CString}
    (hS : S ∈ w.cpool.strings) {bufSize : ℕ} (hbuf : 1 < bufSize) :
    ∃ buf, lookupStringConstant impl bufSize (poolOffset w.cpool.strings S) = some buf ∧
      (cstr buf).chars = S.chars.take (bufSize - 1) ∧ buf.length = bufSize := by
  obtain ⟨-, -, hend⟩ := h.bounds
  have hlt := poolOffset_lt hS
  have hheld : Holds f (stringTableStart w + poolOffset w.cpool.strings S) S.toBytes := by
    have hin := (holds_poolOffset hS).le_length S.toBytes_ne_nil
    have := h.laidOut.strings.slice hin
    rw [(holds_poolOffset hS).slice_eq rfl] at this
    exact this
  have hle := hheld.le_length S.toBytes_ne_nil
  rw [CString.length_toBytes] at hle
  have hsize := S.size_pos
  have hpos : 0 < (slice f (stringTableStart w + poolOffset w.cpool.strings S) (bufSize - 1)).length := by
    rw [length_slice]
    omega
  have hfit := length_slice_le f (stringTableStart w + poolOffset w.cpool.strings S) (bufSize - 1)
  have hstart : impl.hdr.stringConstantTableStart = stringTableStart w := by
    rw [ho.hdr]
    rfl
  unfold V2.lookupStringConstant
  rw [ho.fd, hstart, pread_eq (by omega)]
  simp only [hpos, if_true]
  refine ⟨_, rfl, ?_, ?_⟩
  · rw [overlay, List.drop_replicate, cstr_append_replicate_zero]
    exact chars_cstr_slice_of_holds hheld _
  · rw [length_overlay (by rw [List.length_replicate]; omega), List.length_replicate]

/-- The comparison of a stored name with the name looked for. -/
theorem strncmp_name {buf : Bytes} {S name : CString}
    (hbuf : (cstr buf).chars = S.chars.take (maxNameSize + 1 - 1))
    (hlen : buf.length = maxNameSize + 1) (hS : S.length ≤ maxNameSize) :
    strncmp (maxNameSize + 1) buf name.toBytes = .eq ↔ S = name := by
  have hread : cstr buf = S := by
    apply CString.ext
    rw [hbuf]
    exact List.take_of_length_le hS
  have hcut := chars_cstr_take_toBytes_append name [] (maxNameSize + 1)
  rw [List.append_nil] at hcut
  rw [strncmp, CString.cmp_eq_eq, List.take_of_length_le hlen.le, hread]
  constructor
  · intro he
    -- no more than a stored name has was cut off
    have hlen := congrArg (fun s => s.chars.length) he
    simp only [hcut, List.length_take] at hlen
    have hshort : name.chars.length ≤ maxNameSize + 1 := by
      unfold CString.length at hS
      omega
    apply CString.ext
    rw [he, hcut, List.take_of_length_le hshort]
  · rintro rfl
    apply CString.ext
    rw [hcut, List.take_of_length_le (Nat.le_succ_of_le hS)]

/-- The search of a blob table of at most 255 entries, in terms of the ids in attachment order. -/
theorem findBlob (h : Filed f ops w) (ho : Opened f w impl)
    (hpool : (poolBytes w.cpool.strings).length ≤ 2 ^ 32) {r : ℕ} {hexName : CString}
    {e' : RecordEntry} (ht : TableWritten f (finishedBlobs w) (archiveEntry ops r hexName) e')
    (he : e' ∈ finishedRecords w) (hlen : (attachedIds ops r).length ≤ 255) (name : CString) :
    findBlob impl e'.srecord name =
      ((attachedIds ops r).find? fun i => ((finishedBlobs w).getD i default).name = name).map
        fun i => ((finishedBlobs w).getD i default).sblob.reread := by
  have hcount : e'.srecord.blobTableLength =
      ((attachedIds ops r).insertionSort (blobNameLe (finishedBlobs w))).length := by
    rw [blobTableLength_eq ht, List.length_insertionSort, Nat.mod_eq_of_lt (by omega)]
  rw [V2.findBlob, hcount, findSome?_range _ _ fun i =>
      if ((finishedBlobs w).getD i default).name = name then
        some ((finishedBlobs w).getD i default).sblob.reread else none, findSome?_ite]
  · congr 1
    convert find?_insertionSort (fun i => ((finishedBlobs w).getD i default).name)
      (blobNameLe (finishedBlobs w)) (fun _ _ => Iff.rfl) name (attachedIds ops r)
  · intro j i hj
    have hmem := (List.mem_insertionSort _).mp (List.mem_of_getElem? hj)
    obtain ⟨c, b, hc, hb, hcarries, hplace, -⟩ := h.attached_entry hmem
    have hacc := (accepted_of_mem_calls (List.mem_of_getElem? hc)).1
    have hs : StringsPlaced w.cpool c b.sblob.nameOffs b.sblob.contentTypeOffs := h.strings _ hplace
    have hno := (hs.offsets hpool).1
    have hoffs : b.sblob.reread.nameOffs = poolOffset w.cpool.strings c.name := by
      have hlt := poolOffset_lt hs.name_mem
      have := h.bounds.2.2
      rw [Blob.reread_nameOffs (by omega), hno]
    obtain ⟨buf, hlook, hcstr, hbuf⟩ := h.lookupStringConstant ho hs.name_mem
      (show 1 < maxNameSize + 1 by norm_num)
    rw [findBlobAt, h.tableBlob_attached ho ht he hj, finishedBlobs_getD w hb, Option.bind_eq_bind,
      Option.bind_some, hoffs, hlook, Option.bind_eq_bind, Option.bind_some]
    simp only [hcarries.name, strncmp_name hcstr hbuf hacc]

/-! ## The record table as a whole -/

/-- The header has the number of the records. -/
theorem recordsLength_eq (ho : Opened f w impl) :
    impl.hdr.recordsLength = (finishedRecords w).length := by
  rw [ho.hdr, length_finishedRecords]
  rfl

/-- Every record of a loaded table. -/
theorem recordAt_of_loaded (h : Filed f ops w) (ho : Loaded f w impl) {k : ℕ} {e : RecordEntry}
    (he : (finishedRecords w)[k]? = some e) : V2.recordAt impl k = e.srecord := by
  have hk := (List.getElem?_eq_some_iff.mp he).1
  rw [length_finishedRecords] at hk
  exact h.recordAt ho.toOpened he ((Nat.mul_le_mul_right _ hk).trans ho.all)

/-- The table that is read is the one that was written. -/
theorem table_eq (h : Filed f ops w) (ho : Loaded f w impl) :
    table impl = (finishedRecords w).map RecordEntry.srecord := by
  apply List.ext_getElem?
  intro k
  rw [table, List.getElem?_map, List.getElem?_map, recordsLength_eq ho.toOpened]
  by_cases hk : k < (finishedRecords w).length
  · rw [List.getElem?_range hk, List.getElem?_eq_getElem hk, Option.map_some, Option.map_some,
      h.recordAt_of_loaded ho (List.getElem?_eq_getElem hk)]
  · rw [List.getElem?_eq_none (by simpa using hk), List.getElem?_eq_none (not_lt.mp hk)]
    rfl

/-- The writer writes no tombstones. -/
theorem not_recordIsTombstone (e : RecordEntry) : recordIsTombstone e.srecord = false := by
  simp [recordIsTombstone, RecordEntry.srecord]

/-- No record of a finished shard is a tombstone. -/
theorem liveRecords_eq (h : Filed f ops w) (ho : Loaded f w impl) :
    liveRecords impl = (finishedRecords w).map RecordEntry.srecord := by
  rw [liveRecords, h.table_eq ho, List.filter_eq_self]
  intro r hr
  obtain ⟨e, -, rfl⟩ := List.mem_map.mp hr
  rw [not_recordIsTombstone, Bool.not_false]

/-- A listing has the records of the table, in its order. -/
theorem listRecords_eq (h : Filed f ops w) (ho : Loaded f w impl)
    (hrec : w.records.length * Record.sizeof < 2 ^ 31) :
    listRecords impl = (finishedRecords w).map fun e => some (recordOf impl e.srecord) := by
  have hlt : impl.hdr.recordsLength < 2 ^ 31 := by
    have hle : w.records.length ≤ w.records.length * Record.sizeof :=
      Nat.le_mul_of_pos_right _ (by norm_num)
    rw [recordsLength_eq ho.toOpened, length_finishedRecords]
    omega
  rw [V2.listRecords_eq hlt, h.liveRecords_eq ho, List.map_map]
  rfl

/-- The sorted record array holds the entries of the run in table order. -/
theorem insertionSort_records (h : Filed f ops w) :
    w.records.insertionSort rawNameLe = (tableOrder ops).map fun r =>
      archiveEntry ops r ((recordNames ops).getD r .empty) := by
  have hrec : w.records = (List.range (recordNames ops).length).map fun r =>
      archiveEntry ops r ((recordNames ops).getD r .empty) := by
    rw [h.records.records]
    apply List.ext_getElem?
    intro r
    rw [List.getElem?_mapIdx, List.getElem?_map]
    by_cases hr : r < (recordNames ops).length
    · rw [List.getElem?_range hr, List.getElem?_eq_getElem hr, Option.map_some, Option.map_some,
        List.getD_eq_getElem _ _ hr]
    · rw [List.getElem?_eq_none (not_lt.mp hr), List.getElem?_eq_none (by simpa using hr)]
      rfl
  rw [hrec, tableOrder, List.map_insertionSort _ rawNameLe]
  exact fun _ _ _ _ => Iff.rfl

/-- The records of the file in table order. -/
theorem forall₂_tableWritten (h : Filed f ops w) :
    List.Forall₂ (fun r e' => TableWritten f (finishedBlobs w)
      (archiveEntry ops r ((recordNames ops).getD r .empty)) e') (tableOrder ops)
      (finishedRecords w) := by
  have htables := h.laidOut.tables
  rwa [h.insertionSort_records, List.forall₂_map_left_iff] at htables

/-- A loaded table has every record. -/
theorem recordEnd_le (h : Filed f ops w) (ho : Loaded f w impl) {k r : ℕ}
    (hr : (tableOrder ops)[k]? = some r) : (k + 1) * Record.sizeof ≤ impl.records.length := by
  have hk := (List.getElem?_eq_some_iff.mp hr).1
  rw [tableOrder, List.length_insertionSort, List.length_range, ← h.length_records] at hk
  exact (Nat.mul_le_mul_right _ hk).trans ho.all

/-- The record at a place of the table. -/
theorem exists_finishedRecord (h : Filed f ops w) {k r : ℕ} (hr : (tableOrder ops)[k]? = some r) :
    ∃ e', (finishedRecords w)[k]? = some e' ∧ TableWritten f (finishedBlobs w)
      (archiveEntry ops r ((recordNames ops).getD r .empty)) e' :=
  exists_getElem?_of_forall₂ h.forall₂_tableWritten hr

/-- A finish leaves the names of the sorted records as they are. -/
theorem rawNames_eq (h : Filed f ops w) :
    (finishedRecords w).map RecordEntry.rawName =
      (w.records.insertionSort rawNameLe).map RecordEntry.rawName := by
  rw [← List.forall₂_eq_eq_eq, List.forall₂_map_left_iff, List.forall₂_map_right_iff]
  exact (h.laidOut.tables.imp fun _ _ ht => ht.rawName).flip

/-- The raw names of the shard are those of the run. -/
theorem rawNames_perm (h : Filed f ops w) :
    ((finishedRecords w).map RecordEntry.rawName).Perm ((recordNames ops).map rawNameOf) := by
  rw [h.rawNames_eq]
  refine ((List.perm_insertionSort rawNameLe w.records).map _).trans ?_
  have hmap : (((recordNames ops).mapIdx (archiveEntry ops)).map RecordEntry.rawName) =
      (recordNames ops).map rawNameOf := by
    apply List.ext_getElem?
    intro r
    rw [List.getElem?_map, List.getElem?_mapIdx, List.getElem?_map, Option.map_map]
    rfl
  rw [h.records.records, hmap]

/-- The table is sorted. -/
theorem rawNames_pairwise (h : Filed f ops w) :
    ((finishedRecords w).map RecordEntry.rawName).Pairwise fun a b => a.toList ≤ b.toList := by
  rw [h.rawNames_eq, List.pairwise_map]
  exact List.pairwise_insertionSort rawNameLe w.records

/-! ## The search -/

/-- The record at an index of the table has the name that was written there. -/
theorem rawName_recordAt (h : Filed f ops w) (ho : Loaded f w impl) {k : ℕ}
    (hk : k < (finishedRecords w).length) :
    (V2.recordAt impl k).rawName = (finishedRecords w)[k].rawName :=
  congrArg Record.rawName (h.recordAt_of_loaded ho (List.getElem?_eq_getElem hk))

/-- The bisection finds a match if there is one. -/
theorem monotoneFor (h : Filed f ops w) (ho : Loaded f w impl) (x : RawName) :
    MonotoneFor (findRecordByRawNameCompar impl x) impl.hdr.recordsLength := by
  intro i j hij hj
  rw [recordsLength_eq ho.toOpened] at hj
  have hle : (V2.recordAt impl i).rawName.toList ≤ (V2.recordAt impl j).rawName.toList := by
    rw [h.rawName_recordAt ho hj, h.rawName_recordAt ho (hij.trans hj)]
    exact List.pairwise_iff_getElem.mp (List.pairwise_map.mp h.rawNames_pairwise) i j _ hj hij
  simp only [findRecordByRawNameCompar, memcmp_eq_gt, memcmp_eq_lt]
  exact ⟨fun hgt => hle.trans_lt hgt, fun hlt => hlt.trans_le hle⟩

/-- What the search answers, in terms of the index the bisection finds. -/
theorem findRecordByRawName_eq (h : Filed f ops w) (ho : Loaded f w impl) (x : RawName) :
    findRecordByRawName impl x =
      (bsearch (findRecordByRawNameCompar impl x) 0 (finishedRecords w).length).map
        fun i => recordOf impl (V2.recordAt impl i) := by
  rw [findRecordByRawName, recordsLength_eq ho.toOpened]
  rcases hb : bsearch (findRecordByRawNameCompar impl x) 0 (finishedRecords w).length with _ | i
  · rfl
  · obtain ⟨-, hi, -⟩ := bsearch_sound hb
    have hlive : recordIsTombstone (V2.recordAt impl i) = false := by
      rw [h.recordAt_of_loaded ho (List.getElem?_eq_getElem hi)]
      exact not_recordIsTombstone _
    simp only [hlive, Bool.false_eq_true, if_false, recordNew_of_live hlive, Option.map_some]

/-- **A name is found exactly if it was added.** -/
theorem findRecordByRawName_eq_none_iff (h : Filed f ops w) (ho : Loaded f w impl) (x : RawName) :
    findRecordByRawName impl x = none ↔
      ∀ hexName ∈ recordNames ops, rawNameOf hexName ≠ x := by
  have hmono := h.monotoneFor ho x
  rw [recordsLength_eq ho.toOpened] at hmono
  have hnames : (∀ hexName ∈ recordNames ops, rawNameOf hexName ≠ x) ↔
      ∀ y ∈ (finishedRecords w).map RecordEntry.rawName, y ≠ x := by
    simp only [h.rawNames_perm.mem_iff, List.forall_mem_map]
  rw [h.findRecordByRawName_eq ho, Option.map_eq_none_iff, bsearch_eq_none_iff_of_monotoneFor hmono,
    hnames]
  constructor
  · intro hne y hy hyx
    obtain ⟨k, hk, rfl⟩ := List.getElem_of_mem hy
    rw [List.length_map] at hk
    refine hne k hk (findRecordByRawNameCompar_eq_eq.mpr ?_)
    rw [h.rawName_recordAt ho hk, ← hyx, List.getElem_map]
  · intro hne k hk he
    rw [findRecordByRawNameCompar_eq_eq, h.rawName_recordAt ho hk] at he
    exact hne _ (List.mem_map_of_mem (List.getElem_mem hk)) he

/-- What is found has the name, and is in the table. -/
theorem findRecordByRawName_eq_some (h : Filed f ops w) (ho : Loaded f w impl) {x : RawName}
    {rec : EosShardRecord Record} (hf : findRecordByRawName impl x = some rec) :
    rec.rawName = x ∧ ∃ e ∈ finishedRecords w, rec = recordOf impl e.srecord := by
  rw [h.findRecordByRawName_eq ho, Option.map_eq_some_iff] at hf
  obtain ⟨i, hb, rfl⟩ := hf
  obtain ⟨-, hi, hcmp⟩ := bsearch_sound hb
  refine ⟨findRecordByRawNameCompar_eq_eq.mp hcmp, _, List.getElem_mem hi, ?_⟩
  rw [h.recordAt_of_loaded ho (List.getElem?_eq_getElem hi)]

end Filed

/-! ## Runs that can be evaluated -/

/-- A finished run on an empty file, whose shard is in range and opens. -/
structure Sample (ops : List (Op env)) (w : WriterV2) (log : List Write) (impl : ShardFileImplV2) :
    Prop where
  run : run writerV2New ops = some (w, log)
  end_lt : shardEnd w < 2 ^ 63
  pool_le : (poolBytes w.cpool.strings).length ≤ 2 ^ 32
  filed : Filed (applyWrites [] (log ++ finish w)) ops w
  opens : implV2New (applyWrites [] (log ++ finish w)) = .ok impl
  loaded : Loaded (applyWrites [] (log ++ finish w)) w impl

/-- A run whose shard is within all bounds is a sample. -/
theorem exists_sample (ops : List (Op env))
    (h : (run writerV2New ops).map (fun p => decide (shardEnd p.1 < 2 ^ 63 ∧
      (poolBytes p.1.cpool.strings).length ≤ 2 ^ 32 ∧
      p.1.records.length * Record.sizeof < 2 ^ 31)) = some true) :
    ∃ w log impl, Sample ops w log impl := by
  obtain ⟨⟨w, log⟩, hrun, hfits⟩ := Option.map_eq_some_iff.mp h
  obtain ⟨hend, hpool, hrec⟩ := of_decide_eq_true hfits
  have hfiled := filed_finish [] hrun hend
  exact ⟨w, log, _, hrun, hend, hpool, hfiled, hfiled.laidOut.implV2New hend hrec,
    hfiled.laidOut.loaded_implOf⟩

/-- The record at a place of the table of a sample. -/
theorem Sample.exists_record {ops : List (Op env)} {w : WriterV2} {log : List Write}
    {impl : ShardFileImplV2} (h : Sample ops w log impl) {k r : ℕ}
    (hr : (tableOrder ops)[k]? = some r) :
    ∃ e' ∈ finishedRecords w, TableWritten (applyWrites [] (log ++ finish w)) (finishedBlobs w)
        (archiveEntry ops r ((recordNames ops).getD r .empty)) e' ∧
      recordAt impl k = e'.srecord ∧ recordNew impl (recordAt impl k) = some (recordOf impl e'.srecord) := by
  obtain ⟨e', he, ht⟩ := h.filed.exists_finishedRecord hr
  have hat := h.filed.recordAt h.loaded.toOpened he (h.filed.recordEnd_le h.loaded hr)
  refine ⟨e', List.mem_of_getElem? he, ht, hat, ?_⟩
  rw [hat]
  exact recordNew_of_live (Filed.not_recordIsTombstone e')

/-- Add a file under a name. -/
def smallCall (name : CString) (file : GFile) (flags : EosShardBlobFlags)
    (hpos : 0 < (smallEnv.stored file flags).length)
    (hle : (smallEnv.stored file flags).length ≤ 4096 * 4) : AddBlob smallEnv where
  name := name
  file := file
  contentType := none
  flags := flags
  reads := [smallEnv.stored file flags]
  reads_flatten := by simp
  reads_size := by simpa using ⟨hpos, hle⟩

/-- The byte 1 as the data of a record. -/
def dataCall : AddBlob smallEnv := smallCall blobData oneFile .none (by decide) (by decide)

end EosShard.V2
