import EosShard.Found.Extents
import EosShard.V2.Dedup

/-!
# The layout of a finished shard

`finish` writes five regions one behind the other (the blob headers, the blob tables, the record
table, the string pool) and the header at the start. Each region is a sequence of consecutive
pieces (`writeBlobHeaders_eq`, `writeBlobTables_spec`, `writeRecords_eq`), so no two writes meet
(`inOrder_finish`), and each has its bytes in the file.

* `LaidOut f w`: the file `f` has the header and the regions of the writer `w`.
* `laidOut_finish`: what `finish` makes of any file is laid out, and the data that was behind the
  header and in front of the running offset is still there.
-/

namespace EosShard.V2

open EosShard.Found

/-! ## The pieces -/

/-- The headers of the blobs are written behind each other. -/
theorem writeBlobHeaders_eq (offset : ℕ) (bs : List BlobEntry) :
    writeBlobHeaders offset bs =
      (bs.mapIdx fun i b => { b with offs := offset + i * Blob.sizeof },
        seqWrites offset (bs.map fun b => b.sblob.toBytes), offset + bs.length * Blob.sizeof) := by
  induction bs generalizing offset with
  | nil => simp [writeBlobHeaders, seqWrites]
  | cons b bs ih =>
      simp only [writeBlobHeaders, ih, List.mapIdx_cons, List.map_cons, seqWrites,
        Blob.length_toBytes, List.length_cons, Nat.zero_mul, Nat.add_zero]
      have hoffs : ∀ i, offset + Blob.sizeof + i * Blob.sizeof = offset + (i + 1) * Blob.sizeof :=
        fun i => by ring
      simp only [hoffs]

/-- The blob table of a record: the offsets of its blob headers, sorted by name. -/
def tablePieces (blobs : List BlobEntry) (e : RecordEntry) : List Bytes :=
  (e.blobs.insertionSort (blobNameLe blobs)).map fun i =>
    (⟨(blobs.getD i default).offs⟩ : RecordBlobTableEntry).toBytes

/-- The entries of a blob table are written behind each other. -/
theorem writeBlobTableEntries_eq (blobs : List BlobEntry) (offset : ℕ) (is : List ℕ) :
    writeBlobTableEntries blobs offset is =
      (seqWrites offset (is.map fun i =>
        (⟨(blobs.getD i default).offs⟩ : RecordBlobTableEntry).toBytes),
        offset + is.length * RecordBlobTableEntry.sizeof) := by
  induction is generalizing offset with
  | nil => simp [writeBlobTableEntries, seqWrites]
  | cons i is ih =>
      simp only [writeBlobTableEntries, ih, List.map_cons, seqWrites,
        RecordBlobTableEntry.length_toBytes, List.length_cons]
      refine Prod.ext rfl ?_
      simp only
      ring

/-- The pieces of all blob tables, and where they end. -/
theorem writeBlobTables_eq (blobs : List BlobEntry) (offset : ℕ) (es : List RecordEntry) :
    (writeBlobTables blobs offset es).2 =
      (seqWrites offset (es.flatMap (tablePieces blobs)),
        offset + (es.flatMap (tablePieces blobs)).flatten.length) := by
  induction es generalizing offset with
  | nil => simp [writeBlobTables, seqWrites]
  | cons e es ih =>
      have hlen : (tablePieces blobs e).flatten.length =
          (e.blobs.insertionSort (blobNameLe blobs)).length * RecordBlobTableEntry.sizeof :=
        length_flatten_map_of_forall fun _ _ => RecordBlobTableEntry.length_toBytes _
      have h := ih (offset + (tablePieces blobs e).flatten.length)
      simp only [writeBlobTables, writeBlobTable, writeBlobTableEntries_eq, ← hlen, h,
        List.flatMap_cons, seqWrites_append, List.flatten_append, List.length_append]
      refine Prod.ext rfl ?_
      simp only
      omega

/-- A finished record entry: the same name, the table sorted and written where the entry says. -/
structure TableWritten (f : Bytes) (bs : List BlobEntry) (e e' : RecordEntry) : Prop where
  rawName : e'.rawName = e.rawName
  blobs : e'.blobs = e.blobs.insertionSort (blobNameLe bs)
  holds : Holds f e'.blobTableStart (tablePieces bs e).flatten

/-- Where the blob tables are in the file, every record finds its own. -/
theorem writeBlobTables_spec (f : Bytes) (blobs : List BlobEntry) (offset : ℕ)
    (es : List RecordEntry) (h : Holds f offset (es.flatMap (tablePieces blobs)).flatten) :
    List.Forall₂ (TableWritten f blobs) es (writeBlobTables blobs offset es).1 := by
  induction es generalizing offset with
  | nil => exact .nil
  | cons e es ih =>
      rw [List.flatMap_cons, List.flatten_append, Holds.append_iff] at h
      have hlen : (tablePieces blobs e).flatten.length =
          (e.blobs.insertionSort (blobNameLe blobs)).length * RecordBlobTableEntry.sizeof :=
        length_flatten_map_of_forall fun _ _ => RecordBlobTableEntry.length_toBytes _
      simp only [writeBlobTables, writeBlobTable, writeBlobTableEntries_eq, ← hlen]
      exact .cons ⟨rfl, rfl, h.1⟩ (ih _ h.2)

/-- Every blob table ends where the last one ends, or before. -/
theorem blobTable_end_le (blobs : List BlobEntry) (offset : ℕ) (es : List RecordEntry) :
    ∀ e' ∈ (writeBlobTables blobs offset es).1,
      e'.blobTableStart + e'.blobs.length * RecordBlobTableEntry.sizeof ≤
        (writeBlobTables blobs offset es).2.2 := by
  induction es generalizing offset with
  | nil => simp [writeBlobTables]
  | cons e es ih =>
      intro e' he'
      have hlast : (writeBlobTables blobs offset (e :: es)).2.2 =
          (writeBlobTables blobs (writeBlobTable blobs offset e).2.2 es).2.2 := rfl
      have hend : (writeBlobTable blobs offset e).2.2 =
          (writeBlobTable blobs offset e).1.blobTableStart +
            (writeBlobTable blobs offset e).1.blobs.length * RecordBlobTableEntry.sizeof := by
        simp only [writeBlobTable, writeBlobTableEntries_eq]
      rw [hlast]
      simp only [writeBlobTables, List.mem_cons] at he'
      rcases he' with rfl | he'
      · have h := congrArg Prod.snd (writeBlobTables_eq blobs (writeBlobTable blobs offset e).2.2 es)
        simp only at h
        rw [h, ← hend]
        exact Nat.le_add_right _ _
      · exact ih _ e' he'

/-- Every record gets a table. -/
theorem length_writeBlobTables (blobs : List BlobEntry) (offset : ℕ) (es : List RecordEntry) :
    (writeBlobTables blobs offset es).1.length = es.length := by
  induction es generalizing offset with
  | nil => rfl
  | cons e es ih => exact congrArg (· + 1) (ih _)

/-- The records are written behind each other. -/
theorem writeRecords_eq (offset : ℕ) (es : List RecordEntry) :
    writeRecords offset es =
      (seqWrites offset (es.map fun e => e.srecord.toBytes), offset + es.length * Record.sizeof) := by
  induction es generalizing offset with
  | nil => simp [writeRecords, seqWrites]
  | cons e es ih =>
      simp only [writeRecords, ih, List.map_cons, seqWrites, Record.length_toBytes,
        List.length_cons]
      refine Prod.ext rfl ?_
      simp only
      ring

/-! ## The regions -/

/-- The blob entries with the places of their headers. -/
def finishedBlobs (w : WriterV2) : List BlobEntry := (writeBlobHeaders w.ctxOffset w.blobs).1

/-- Where the blob tables start. -/
def tablesStart (w : WriterV2) : ℕ := (writeBlobHeaders w.ctxOffset w.blobs).2.2

/-- The sorted record entries with the places of their blob tables. -/
def finishedRecords (w : WriterV2) : List RecordEntry :=
  (writeBlobTables (finishedBlobs w) (tablesStart w) (w.records.insertionSort rawNameLe)).1

/-- Where the record table starts. -/
def recordsStart (w : WriterV2) : ℕ :=
  align (writeBlobTables (finishedBlobs w) (tablesStart w) (w.records.insertionSort rawNameLe)).2.2

/-- Where the string constant table starts. -/
def stringTableStart (w : WriterV2) : ℕ := align (writeRecords (recordsStart w) (finishedRecords w)).2

/-- The end of a finished shard. -/
def shardEnd (w : WriterV2) : ℕ := stringTableStart w + (poolBytes w.cpool.strings).length

/-- The header. -/
def finishedHdr (w : WriterV2) : Hdr where
  magic := magic
  flags := 0
  recordsLength := w.records.length
  recordsStart := recordsStart w
  stringConstantTableStart := stringTableStart w

/-- A finish keeps the number of the records. -/
theorem length_finishedRecords (w : WriterV2) : (finishedRecords w).length = w.records.length := by
  rw [finishedRecords, length_writeBlobTables, List.length_insertionSort]

/-- What a finish writes: blobs, tables, records, strings and the header. -/
theorem finish_eq (w : WriterV2) :
    finish w = (writeBlobHeaders w.ctxOffset w.blobs).2.1 ++
      ((writeBlobTables (finishedBlobs w) (tablesStart w)
          (w.records.insertionSort rawNameLe)).2.1 ++
        ((writeRecords (recordsStart w) (finishedRecords w)).1 ++
          (constantPoolWrite w.cpool.strings (stringTableStart w) ++
            [⟨0, (finishedHdr w).toBytes⟩]))) := rfl

/-- The regions follow each other. -/
theorem regions_le (w : WriterV2) :
    w.ctxOffset ≤ tablesStart w ∧ tablesStart w ≤ recordsStart w ∧
      (∀ e ∈ finishedRecords w,
        e.blobTableStart + e.blobs.length * RecordBlobTableEntry.sizeof ≤ recordsStart w) ∧
      recordsStart w + (finishedRecords w).length * Record.sizeof ≤ stringTableStart w ∧
      stringTableStart w ≤ shardEnd w := by
  have h₁ : (writeBlobTables (finishedBlobs w) (tablesStart w)
      (w.records.insertionSort rawNameLe)).2.2 ≤ recordsStart w := le_align _
  refine ⟨?_, le_trans ?_ h₁, ?_, ?_, Nat.le_add_right _ _⟩
  · rw [tablesStart, writeBlobHeaders_eq]
    exact Nat.le_add_right _ _
  · have h := congrArg Prod.snd (writeBlobTables_eq (finishedBlobs w) (tablesStart w)
      (w.records.insertionSort rawNameLe))
    simp only at h
    rw [h]
    exact Nat.le_add_right _ _
  · exact fun e he => (blobTable_end_le _ _ _ e he).trans h₁
  · have h := le_align (writeRecords (recordsStart w) (finishedRecords w)).2
    rw [stringTableStart, writeRecords_eq]
    rwa [writeRecords_eq] at h

/-- `finish` writes one region behind the other, and then the header. -/
theorem inOrder_finish (w : WriterV2) : ∃ ws, finish w = ws ++ [⟨0, (finishedHdr w).toBytes⟩] ∧
    InOrder w.ctxOffset (shardEnd w) (ws.map Write.extent) := by
  obtain ⟨-, -, -, h₃, -⟩ := regions_le w
  have e₂ := writeBlobTables_eq (finishedBlobs w) (tablesStart w)
    (w.records.insertionSort rawNameLe)
  have hheaders : InOrder w.ctxOffset (tablesStart w)
      ((writeBlobHeaders w.ctxOffset w.blobs).2.1.map Write.extent) := by
    have hseq := inOrder_seqWrites w.ctxOffset (w.blobs.map fun b => b.sblob.toBytes)
    rw [length_flatten_map_of_forall fun b _ => Blob.length_toBytes b.sblob] at hseq
    rw [tablesStart, writeBlobHeaders_eq]
    exact hseq
  have htables : InOrder (tablesStart w) (recordsStart w)
      ((writeBlobTables (finishedBlobs w) (tablesStart w)
        (w.records.insertionSort rawNameLe)).2.1.map Write.extent) := by
    have hend : (writeBlobTables (finishedBlobs w) (tablesStart w)
      (w.records.insertionSort rawNameLe)).2.2 ≤ recordsStart w := le_align _
    rw [congrArg Prod.snd e₂] at hend
    rw [congrArg Prod.fst e₂]
    exact (inOrder_seqWrites _ _).mono (le_refl _) hend
  have hrecords : InOrder (recordsStart w) (stringTableStart w)
      ((writeRecords (recordsStart w) (finishedRecords w)).1.map Write.extent) := by
    have hseq := inOrder_seqWrites (recordsStart w)
      ((finishedRecords w).map fun e => e.srecord.toBytes)
    rw [length_flatten_map_of_forall fun e _ => Record.length_toBytes e.srecord] at hseq
    rw [writeRecords_eq]
    exact hseq.mono (le_refl _) h₃
  have hstrings : InOrder (stringTableStart w) (shardEnd w)
      ((constantPoolWrite w.cpool.strings (stringTableStart w)).map Write.extent) := by
    rw [constantPoolWrite_eq]
    exact inOrder_seqWrites _ _
  have h := finish_eq w
  simp only [← List.append_assoc] at h
  refine ⟨_, h, ?_⟩
  simp only [List.map_append]
  exact ((hheaders.append htables).append hrecords).append hstrings

/-- All writes but the last are behind the data. -/
theorem finish_eq_concat (w : WriterV2) :
    ∃ ws, finish w = ws ++ [⟨0, (finishedHdr w).toBytes⟩] ∧ WritesFrom w.ctxOffset ws := by
  obtain ⟨ws, hfinish, hin⟩ := inOrder_finish w
  exact ⟨ws, hfinish, fun x hx => (hin.bounds _ (List.mem_map_of_mem hx)).1⟩

/-- Every write is behind `lo` or in the place of the header. -/
def Behind (lo : ℕ) (ws : List Write) : Prop :=
  ∀ x ∈ ws, lo ≤ x.off ∨ x.off + x.data.length ≤ Hdr.sizeof

/-- Writes after writes stay behind a position if both do. -/
theorem Behind.append {lo : ℕ} {ws ws' : List Write} (h : Behind lo ws) (h' : Behind lo ws') :
    Behind lo (ws ++ ws') := fun x hx => (List.mem_append.mp hx).elim (h x) (h' x)

/-- Writes that start behind a position stay behind it. -/
theorem behind_of_writesFrom {lo lo' : ℕ} {ws : List Write} (h : WritesFrom lo' ws)
    (hle : lo ≤ lo') : Behind lo ws := fun x hx => Or.inl (hle.trans (h x hx))

/-- The header counts as behind every position. -/
theorem behind_header (lo : ℕ) (w : WriterV2) : Behind lo [⟨0, (finishedHdr w).toBytes⟩] := by
  intro x hx
  rw [List.mem_singleton.mp hx]
  exact Or.inr (by rw [Hdr.length_toBytes rfl, Nat.zero_add])

/-- A region between the header and `lo` is kept. -/
theorem Behind.holds {f e : Bytes} {o lo : ℕ} {ws : List Write} (hb : Behind lo ws)
    (ho : Hdr.sizeof ≤ o) (hlo : o + e.length ≤ lo) (h : Holds f o e) :
    Holds (applyWrites f ws) o e :=
  h.applyWrites fun x hx => (hb x hx).elim (fun hx => Or.inl (hlo.trans hx))
    fun hx => Or.inr (hx.trans ho)

/-- The file has the header and the regions of a writer. -/
structure LaidOut (f : Bytes) (w : WriterV2) : Prop where
  hdr : Holds f 0 (finishedHdr w).toBytes
  blobs : Holds f w.ctxOffset (w.blobs.map fun b => b.sblob.toBytes).flatten
  tables : List.Forall₂ (TableWritten f (finishedBlobs w)) (w.records.insertionSort rawNameLe)
    (finishedRecords w)
  records : Holds f (recordsStart w) ((finishedRecords w).map fun e => e.srecord.toBytes).flatten
  strings : Holds f (stringTableStart w) (poolBytes w.cpool.strings)

/-- No two writes of `finish` meet. -/
theorem apartWrites_finish {w : WriterV2} (hw : Hdr.sizeof ≤ w.ctxOffset) : ApartWrites (finish w) := by
  obtain ⟨ws, hfinish, hin⟩ := inOrder_finish w
  rw [hfinish]
  refine List.pairwise_append.mpr ⟨List.pairwise_map.mp hin.pairwise_apart,
    List.pairwise_singleton _ _, fun x hx y hy => Or.inr ?_⟩
  rw [List.mem_singleton.mp hy, Hdr.length_toBytes rfl, Nat.zero_add]
  exact hw.trans (hin.bounds _ (List.mem_map_of_mem hx)).1

/-- **What `finish` leaves behind**, on any file: the layout, and the data in front of it. -/
theorem laidOut_finish (f : Bytes) {w : WriterV2} (hw : Hdr.sizeof ≤ w.ctxOffset) :
    LaidOut (applyWrites f (finish w)) w ∧
      ∀ o d, Hdr.sizeof ≤ o → o + d.length ≤ w.ctxOffset → Holds f o d →
        Holds (applyWrites f (finish w)) o d := by
  have hheld : ∀ x ∈ finish w, Holds (applyWrites f (finish w)) x.off x.data :=
    fun x hx => holds_applyWrites_of_mem f (apartWrites_finish hw) hx
  -- the writes of each region
  rw [finish_eq] at hheld
  obtain ⟨hblobs, hheld⟩ := List.forall_mem_append.mp hheld
  obtain ⟨htables, hheld⟩ := List.forall_mem_append.mp hheld
  obtain ⟨hrecords, hheld⟩ := List.forall_mem_append.mp hheld
  obtain ⟨hstrings, hhdr⟩ := List.forall_mem_append.mp hheld
  rw [← finish_eq] at hblobs htables hrecords hstrings hhdr
  rw [writeBlobHeaders_eq] at hblobs
  rw [congrArg Prod.fst (writeBlobTables_eq _ _ _)] at htables
  rw [writeRecords_eq] at hrecords
  rw [constantPoolWrite_eq] at hstrings
  refine ⟨⟨?_, ?_, ?_, ?_, ?_⟩, fun o d ho hle hd => ?_⟩
  · exact hhdr ⟨0, (finishedHdr w).toBytes⟩ (List.mem_singleton_self _)
  · exact holds_flatten_of_seqWrites hblobs
  · exact writeBlobTables_spec _ _ _ _ (holds_flatten_of_seqWrites htables)
  · exact holds_flatten_of_seqWrites hrecords
  · exact holds_flatten_of_seqWrites hstrings
  · obtain ⟨ws, hfinish, hfrom⟩ := finish_eq_concat w
    rw [hfinish]
    exact ((behind_of_writesFrom hfrom (le_refl _)).append (behind_header _ w)).holds ho hle hd

end EosShard.V2
