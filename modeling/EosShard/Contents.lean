import EosShard.Decompression
import EosShard.V1.RoundTrip
import EosShard.V2.BlobTable

/-!
# What goes into a shard comes out of it

A file is added to a shard as it is or compressed. A client that reopens the shard finds the record by
its name and the blob in the record, and reads the blob's stream to its end, or loads it.

* `readStream`: the stream of a blob, read to its end, through the decompressor if there is one.
* `ContentsReadBack`: the stream gives the contents of the file, however the calls cut it; so does the
  load, unless the one call that it makes on a decompressed stream is cut short.
* `V2.InScope` and `V1.InScope`: the scope of the round trips, as one assumption.
* `V2.Attached` and `V1.Attached`: a file that is found where it was attached.
* `V2.contents_read_back` and `V1.written_contents_read_back`: **every file of a finished shard reads
  back**, compressed or not.
-/

namespace EosShard

open EosShard.Found

/-- Read the stream of a blob to its end. A decompressor gets all that the stream under it yields, and
its output is cut by `chunk`.
Source: `eos-shard-blob.c`, `eos_shard_blob_get_stream`. -/
def readStream (decompress : Bytes → Bytes) (chunk : ℕ → ℕ → ℕ) (blob : EosShardBlob)
    (calls : List (ℕ × Pread)) (counts : List ℕ) : Option Bytes :=
  match getStream blob with
  | none => none
  | some (.stored stream) => readUntilEnd EosShardBlobStream.readCall stream calls
  | some (.decompressed stream) => do
      let stored ← readUntilEnd EosShardBlobStream.readCall stream calls
      readUntilEnd (fun pos count => some (streamRead (decompress stored) chunk pos count,
        pos + (streamRead (decompress stored) chunk pos count).length)) 0 counts

/-- A client gets the contents of a file from a blob. -/
structure ContentsReadBack (env : Env) (f : Bytes) (file : GFile) (how : EosShardBlobFlags)
    (blob : EosShardBlob) : Prop where
  size : blob.uncompressedSize = file.contents.length
  /-- From the stream, with calls that are answered in full on the file, and cut as it likes by the
  decompressor. -/
  stream : ∀ decompress chunk, decompress (env.compress file.contents) = file.contents →
    Admissible file.contents chunk → ∀ calls counts,
    (∀ c ∈ calls, 0 < c.1 ∧ c.2.Lawful f ∧ c.2.Full f) → blob.size < calls.length →
    (∀ count ∈ counts, 0 < count) → file.contents.length < counts.length →
    readStream decompress chunk blob calls counts = some file.contents
  /-- From the load, if it is not compressed or the first call gets everything. -/
  load_iff : ∀ decompress chunk, decompress (env.compress file.contents) = file.contents →
    Admissible file.contents chunk → ∀ heap,
    loadBlob env (readBytes decompress chunk) heap f blob = .ok (some file.contents) ↔
      (how = .compressedZlib → 0 < file.contents.length →
        chunk 0 file.contents.length = file.contents.length)

section contents

variable {env : Env} {f : Bytes} {type : CString} {file : GFile} {how : EosShardBlobFlags}
  {blob : EosShardBlob}

/-- The stored bytes are read in one piece. -/
theorem BlobReadsBack.pread_eq (h : BlobReadsBack env f type file how blob)
    (hlow : blob.offs < 2 ^ 63) : pread f blob.size blob.offs = some (env.stored file how) := by
  rw [Found.pread_eq hlow, h.holds.slice_eq h.size]

/-- **A blob that reads back gives the contents of its file.** -/
theorem BlobReadsBack.contents (h : BlobReadsBack env f type file how blob)
    (hf : f.length < 2 ^ 63) (hpos : blob.offs ≠ 0) (hlow : blob.offs < 2 ^ 63) :
    ContentsReadBack env f file how blob := by
  have hread := h.pread_eq hlow
  have hfull : (env.stored file how).length = blob.size := h.size.symm
  have hsize : blob.size < 2 ^ 63 := by
    have hslice := h.holds.slice_eq h.size
    have hlen : (slice f blob.offs blob.size).length = blob.size := by rw [hslice, h.size]
    rw [length_slice] at hlen
    omega
  have hstored : ∀ calls : List (ℕ × Pread), (∀ c ∈ calls, 0 < c.1 ∧ c.2.Lawful f ∧ c.2.Full f) →
      blob.size < calls.length → readUntilEnd EosShardBlobStream.readCall (.newForBlob blob) calls =
        some (env.stored file how) := fun calls hcalls hlt =>
    (EosShardBlobStream.readUntilEnd_readCall (EosShardBlobStream.inside_newForBlob blob) rfl hsize hf
      hread hfull hcalls).2 hlt
  cases how with
  | none =>
      have hflags : isCompressedZlib blob.flags = false := by
        rw [h.flags]
        rfl
      refine ⟨h.uncompressedSize, fun decompress chunk _ _ calls counts hcalls hlt _ _ => ?_,
        fun decompress chunk _ _ heap => ?_⟩
      · have hstream : getStream blob = some (.stored (.newForBlob blob)) := by
          unfold getStream
          rw [if_neg hpos, hflags]
          rfl
        rw [readStream, hstream]
        exact hstored calls hcalls hlt
      · exact iff_of_true (h.load rfl _ heap) fun hzip => by cases hzip
  | compressedZlib =>
      have hflags : isCompressedZlib blob.flags = true := by
        rw [h.flags]
        rfl
      refine ⟨h.uncompressedSize,
        fun decompress chunk hzip hchunk calls counts hcalls hlt hcounts hlt' => ?_,
        fun decompress chunk hzip hchunk heap => ?_⟩
      · have hstream : getStream blob = some (.decompressed (.newForBlob blob)) := by
          unfold getStream
          rw [if_neg hpos, if_pos hflags]
        have hunzip : decompress (env.stored file .compressedZlib) = file.contents := hzip
        rw [readStream, hstream]
        simp only [hstored calls hcalls hlt, Option.bind_eq_bind, Option.bind_some, hunzip]
        exact readUntilEnd_streamRead hchunk hcounts hlt'
      · have hload : loadBlob env (readBytes decompress chunk) heap f blob =
            .ok (readBytes decompress chunk (env.stored file .compressedZlib) blob.uncompressedSize) :=
          loadBlob_compressed hf hread hfull h.checksum.symm hflags _
        have hunzip : decompress (env.stored file .compressedZlib) = file.contents := hzip
        rw [hload, h.uncompressedSize, readBytes, if_neg (not_le.mpr file.size_lt), hunzip,
          Except.ok.injEq, Option.some.injEq, streamRead_eq_iff hchunk]
        exact ⟨fun hall _ => hall, fun hall => hall rfl⟩

end contents

/-! ## V2 -/

namespace V2

variable {env : Env}

/-- The scope of the round trip: the fields that hold the sizes are wide enough, and no two contents
have one checksum. -/
structure InScope (ops : List (Op env)) (w : WriterV2) : Prop where
  end_lt : shardEnd w < 2 ^ 32
  records_lt : (recordNames ops).length * Record.sizeof < 2 ^ 31
  attached_le : ∀ r, (attachedIds ops r).length ≤ 255
  types_lt : ∀ c ∈ calls ops, c.type.length < maxContentTypeSize
  collisionFree : CollisionFree (calls ops)

/-- A run in scope gives a shard that reads back. -/
theorem InScope.written {ops : List (Op env)} {w : WriterV2} (h : InScope ops w) (prev : Bytes)
    {log : List Write} (hrun : run writerV2New ops = some (w, log)) :
    Written (applyWrites prev (log ++ finish w)) ops w := by
  have hlen := (filed_finish prev hrun (h.end_lt.trans (by norm_num))).length_records
  exact written_finish prev hrun h.end_lt (hlen ▸ h.records_lt) h.attached_le h.collisionFree

/-- The data of a finished run is behind the header of the shard. -/
theorem InScope.le_dataStart {ops : List (Op env)} {w : WriterV2} (h : InScope ops w)
    {log : List Write} (hrun : run writerV2New ops = some (w, log)) {b : BlobEntry}
    (hb : b ∈ w.blobs) : Hdr.sizeof ≤ b.sblob.dataStart := by
  have hw := history_of_run hrun
  have hend := h.end_lt
  obtain ⟨h₁, h₂, -, h₃, h₄⟩ := regions_le w
  have hpool : (poolBytes w.cpool.strings).length ≤ 2 ^ 32 := by
    unfold shardEnd at hend
    omega
  have hplaced : Placed [] ops w log := by
    rcases placed_or_not_sameOffsets [] hrun (by omega) h.collisionFree with ⟨-, h⟩ | ⟨h, -⟩
    · exact h
    · exact absurd (stepsFit_of_lt hrun (by omega) hpool) h
  obtain ⟨i, hi, rfl⟩ := List.getElem_of_mem hb
  have hi' : i < (calls ops).length := hw.length_blobs ▸ hi
  have hmem : ((calls ops)[i], w.blobs[i]) ∈ placements ops w :=
    List.mem_of_getElem? (List.getElem?_zip_eq_some.mpr
      ⟨List.getElem?_eq_getElem hi', List.getElem?_eq_getElem hi⟩)
  exact (hplaced.bounds _ hmem).1

/-- A blob has the place that its header tells. -/
theorem offs_of_blobNew {impl : ShardFileImplV2} {sblob : Blob} {blob : EosShardBlob}
    (hnew : blobNew impl sblob = some blob) : blob.offs = sblob.dataStart := by
  unfold blobNew at hnew
  split_ifs at hnew
  split at hnew
  · cases hnew
  · cases hnew
    rfl

/-- A blob that is read is made of one of the writer's entries. -/
theorem Written.entry_of_readBlob {f : Bytes} {ops : List (Op env)} {w : WriterV2}
    (h : Written f ops w) {e' : RecordEntry} (he : e' ∈ finishedRecords w) {name : CString}
    {blob : EosShardBlob} (hread : V2.readBlob (implOf f w) e'.srecord name = some blob) :
    ∃ c b, c ∈ calls ops ∧ b ∈ w.blobs ∧ EntryWritten f w c b ∧
      V2.blobNew (implOf f w) b.sblob = some blob := by
  obtain ⟨k, hk⟩ := List.getElem?_of_mem he
  obtain ⟨r, -, ht⟩ := exists_getElem?_of_forall₂ h.filed.forall₂_tableWritten.flip hk
  rw [V2.readBlob, h.filed.findBlob h.laidOut.loaded_implOf.toOpened h.length_pool_le ht he
    (h.attached_le r)] at hread
  rcases hf : (attachedIds ops r).find? fun i => ((finishedBlobs w).getD i default).name = name
    with _ | i
  · rw [hf] at hread
    cases hread
  · obtain ⟨c, -, hc, -⟩ := h.filed.attached_entry (List.mem_of_find?_eq_some hf)
    obtain ⟨b, hb, hbw⟩ := h.entries i c hc
    rw [hf, Option.map_some, Filed.finishedBlobs_getD w hb,
      Blob.reread_of_fits (h.sblob_fits hbw)] at hread
    exact ⟨c, b, List.mem_of_getElem? hc, List.mem_of_getElem? hb, hbw, hread⟩

/-- The file that was attached first under a name to record `r` is found: the record by its name, and
the blob in the record. -/
structure Attached (f : Bytes) (impl : ShardFileImplV2) (hexName name : CString) (c : AddBlob env)
    (rec : EosShardRecord Record) (blob : EosShardBlob) : Prop where
  find : findRecordByRawName impl (rawNameOf hexName) = some rec
  lookup : blobOfName impl rec name = some blob
  readsBack : BlobReadsBack env f c.type c.file c.flags blob
  le_offs : Hdr.sizeof ≤ blob.offs
  offs_lt : blob.offs < 2 ^ 63

/-- No other record has the raw name of record `r`. -/
def NamedOnce (ops : List (Op env)) (r : ℕ) (hexName : CString) : Prop :=
  (recordNames ops)[r]? = some hexName ∧ ∀ (r' : ℕ) (hexName' : CString),
    (recordNames ops)[r']? = some hexName' → rawNameOf hexName' = rawNameOf hexName → r' = r

/-- **Every attached file is found**, except for the empty ones. -/
theorem InScope.attached {ops : List (Op env)} {w : WriterV2} (h : InScope ops w) (prev : Bytes)
    {log : List Write} (hrun : run writerV2New ops = some (w, log)) {r : ℕ} {hexName : CString}
    (hr : NamedOnce ops r hexName) {name : CString} (hname : PublicName name) {c : AddBlob env}
    (hfirst : firstAttached ops r name = some c) (hne : c.file.contents ≠ []) :
    ∃ rec blob, Attached (applyWrites prev (log ++ finish w))
      (implOf (applyWrites prev (log ++ finish w)) w) hexName name c rec blob := by
  have hw := h.written prev hrun
  have hloaded := hw.laidOut.loaded_implOf
  rcases hfind : findRecordByRawName (implOf (applyWrites prev (log ++ finish w)) w)
    (rawNameOf hexName) with _ | rec
  · have hnone := (hw.filed.findRecordByRawName_eq_none_iff hloaded _).mp hfind
    exact absurd rfl (hnone hexName (List.mem_of_getElem? hr.1))
  · obtain ⟨hraw, e, he, rfl⟩ := hw.filed.findRecordByRawName_eq_some hloaded hfind
    -- the record that is found is `r`, since no other one has its name
    obtain ⟨k, hk⟩ := List.getElem?_of_mem he
    obtain ⟨r', hr', ht⟩ := exists_getElem?_of_forall₂ hw.filed.forall₂_tableWritten.flip hk
    have hlt : r' < (recordNames ops).length := by
      have hmem := List.mem_of_getElem? hr'
      rw [tableOrder, List.mem_insertionSort] at hmem
      exact List.mem_range.mp hmem
    have hname' : rawNameOf ((recordNames ops).getD r' .empty) = rawNameOf hexName :=
      ht.rawName.symm.trans hraw
    rw [List.getD_eq_getElem _ _ hlt] at hname'
    obtain rfl := hr.2 r' _ (List.getElem?_eq_getElem hlt) hname'
    have hread := hw.readBlob ht he h.types_lt name
    rw [hfirst, LookupReadsBack, if_neg hne] at hread
    obtain ⟨blob, hblob, hback⟩ := hread
    obtain ⟨c', b, -, hb, hbw, hnew⟩ := hw.entry_of_readBlob he hblob
    have hoffs := offs_of_blobNew hnew
    have hbound := hw.filed.bounds.1
    have hend := hbw.end_le
    refine ⟨_, blob, hfind, ?_, hback, ?_, by omega⟩
    · rw [blobOfName_recordOf _ _ hname, hblob]
    · rw [hoffs]
      exact h.le_dataStart hrun hb

/-- **Every file of a finished V2 shard reads back**, compressed or not, on top of any previous contents
of the file. The shard is recognised and opens; a record whose raw name was used once is found, and the
first file that was attached to it under a name is found there, unless it is empty. The stream of its
blob gives the contents of the file, and so does the load unless it is cut short. -/
theorem contents_read_back (prev : Bytes) {ops : List (Op env)} {w : WriterV2} {log : List Write}
    (hrun : run writerV2New ops = some (w, log)) (hscope : InScope ops w)
    (hlt : (applyWrites prev (log ++ finish w)).length < 2 ^ 63) :
    ∃ impl, (∀ gv heap, detectVersion gv heap (applyWrites prev (log ++ finish w)) =
        .ok (.v2 impl)) ∧
      ∀ r hexName name c, NamedOnce ops r hexName → PublicName name →
        firstAttached ops r name = some c → c.file.contents ≠ [] →
        ∃ rec blob, findRecordByRawName impl (rawNameOf hexName) = some rec ∧
          blobOfName impl rec name = some blob ∧
          ContentsReadBack env (applyWrites prev (log ++ finish w)) c.file c.flags blob := by
  refine ⟨_, (hscope.written prev hrun).detectVersion, fun r hexName name c hr hname hfirst hne => ?_⟩
  obtain ⟨rec, blob, hat⟩ := hscope.attached prev hrun hr hname hfirst hne
  have hpos : 0 < Hdr.sizeof := by decide
  exact ⟨rec, blob, hat.find, hat.lookup,
    hat.readsBack.contents hlt (hpos.trans_le hat.le_offs).ne' hat.offs_lt⟩

/-- The archive of two records is in the scope. -/
theorem inScope_archiveRun : ∃ w log, run writerV2New archiveRun = some (w, log) ∧
    InScope archiveRun w ∧
    (applyWrites (List.replicate 8 255) (log ++ finish w)).length < 2 ^ 63 := by
  have hend : ((run writerV2New archiveRun).map fun p => decide (shardEnd p.1 < 2 ^ 32 ∧
      (applyWrites (List.replicate 8 255) (p.2 ++ finish p.1)).length < 2 ^ 63)) = some true := by
    decide +kernel
  obtain ⟨⟨w, log⟩, hrun, hlt⟩ := Option.map_eq_some_iff.mp hend
  obtain ⟨hend, hlt⟩ := of_decide_eq_true hlt
  refine ⟨w, log, hrun, ⟨hend, by decide, fun r => ?_, by decide, ?_⟩, hlt⟩
  · exact (List.length_filterMap_le _ _).trans (by decide)
  · unfold CollisionFree
    decide +kernel

/-- Its compressed file comes out of it. -/
theorem contents_read_back_zipped : ∃ w log impl rec blob,
    run writerV2New archiveRun = some (w, log) ∧
    (∀ gv heap, detectVersion gv heap (applyWrites (List.replicate 8 255) (log ++ finish w)) =
      .ok (.v2 impl)) ∧
    findRecordByRawName impl (rawNameOf digitsName) = some rec ∧
    blobOfName impl rec zippedCall.name = some blob ∧
    ContentsReadBack smallEnv (applyWrites (List.replicate 8 255) (log ++ finish w)) oneFile
      .compressedZlib blob := by
  obtain ⟨w, log, hrun, hscope, hlt⟩ := inScope_archiveRun
  obtain ⟨impl, hopen, hfiles⟩ := contents_read_back (List.replicate 8 255) hrun hscope hlt
  have hname : zippedCall.name.chars.head? ≠ some 36 := by decide
  have honce : NamedOnce archiveRun 1 digitsName := by
    refine ⟨rfl, fun r hexName hr hraw => ?_⟩
    have hlt : r < 2 := (List.getElem?_eq_some_iff.mp hr).1
    interval_cases r
    · cases hr
      exact absurd hraw (by decide +kernel)
    · rfl
  obtain ⟨rec, blob, hread⟩ := hfiles 1 digitsName zippedCall.name zippedCall honce
    (Or.inr (Or.inr hname)) rfl (by decide)
  exact ⟨w, log, impl, rec, blob, hrun, hopen, hread⟩

end V2

/-! ## V1 -/

namespace V1

variable {env : Env}

/-- The scope of the round trip: content types are UTF-8, and a stored size fits an `int`. -/
structure InScope (ops : List (Op env)) : Prop where
  utf8 : ∀ c, Op.addBlob c ∈ ops → utf8Validate c.type.chars = true
  stored_lt : ∀ c, Op.addBlob c ∈ ops → c.stored.length < 2 ^ 31

/-- One of the two blobs of a record. -/
def slotBlob {π : Type} (rec : EosShardRecord π) : WriterV1Blob → Option EosShardBlob
  | .metadata => rec.metadata
  | .data => rec.data

/-- One of the two entries of a record. -/
def WriterRecordEntry.blob (e : WriterRecordEntry env) : WriterV1Blob → WriterBlobEntry env
  | .metadata => e.metadata
  | .data => e.data

/-- The blob of a record is constructed from its entry. -/
theorem slotBlob_recordOf (e : WriterRecordEntry env) (which : WriterV1Blob) :
    slotBlob (recordOf e) which = blobNewForVariant (blobEntryVariant (e.blob which)) := by
  cases which with
  | metadata => rfl
  | data => rfl

/-- The blob of a record is the one that was set last. -/
theorem RecordWritten.blob {f : Bytes} {lo hi : ℕ} {r : CString × List (AddBlob env)}
    {e' : WriterRecordEntry env} (h : RecordWritten f lo hi (entryOf r) e') (which : WriterV1Blob) :
    BlobWritten f lo hi (blobEntryOf (lastSet which r.2)) (e'.blob which) := by
  cases which with
  | metadata => exact h.metadata
  | data => exact h.data

/-- The blob of an entry that was copied is where the entry says. -/
theorem offs_of_blobWritten {f : Bytes} {c : AddBlob env} {b' : WriterBlobEntry env}
    {blob : EosShardBlob} (h : BlobWritten f 64 (2 ^ 63 - 1) (blobEntryOf (some c)) b')
    (hblob : blobNewForVariant (blobEntryVariant b') = some blob) :
    64 ≤ blob.offs ∧ blob.offs < 2 ^ 63 := by
  obtain ⟨offs, rfl, hc⟩ := h
  obtain ⟨hlow, hhigh, -⟩ := hc c rfl
  unfold blobNewForVariant at hblob
  split_ifs at hblob
  cases hblob
  show 64 ≤ offs ∧ offs < 2 ^ 63
  omega

/-- The file that was set last in a slot of a record is found: the record by its name, and the blob in
the record. -/
structure Attached (f : Bytes) (impl : ShardFileImplV1) (hexName : CString) (which : WriterV1Blob)
    (c : AddBlob env) (rec : EosShardRecord Unit) (blob : EosShardBlob) : Prop where
  find : findRecordByRawName impl (rawNameOf hexName) = some rec
  lookup : slotBlob rec which = some blob
  readsBack : BlobReadsBack env f c.type c.file c.flags blob
  le_offs : 64 ≤ blob.offs
  offs_lt : blob.offs < 2 ^ 63

/-- No other record has the raw name of this one. -/
def NamedOnce (ops : List (Op env)) (r : CString × List (AddBlob env)) : Prop :=
  r ∈ (sections ops).2 ∧ ∀ r' ∈ (sections ops).2, rawNameOf r'.1 = rawNameOf r.1 → r' = r

/-- **Every file that was set last is found.** -/
theorem Finished.attached {gv : GVariantFormat} {f : Bytes} {ops : List (Op env)}
    {es : List (WriterRecordEntry env)} (h : Finished gv f ops es) (hscope : InScope ops)
    {r : CString × List (AddBlob env)} (hr : NamedOnce ops r) {which : WriterV1Blob} {c : AddBlob env}
    (hlast : lastSet which r.2 = some c) :
    ∃ rec blob, Attached f ⟨f, headerEntryVariant es⟩ r.1 which c rec blob := by
  rcases hfind : findRecordByRawName ⟨f, headerEntryVariant es⟩ (rawNameOf r.1) with _ | rec
  · exact absurd rfl ((h.findRecordByRawName_eq_none_iff _).mp hfind r hr.1)
  · obtain ⟨hraw, hmem⟩ := h.findRecordByRawName_eq_some hfind
    rw [Finished.listRecords_eq, List.mem_map] at hmem
    obtain ⟨e', he, rfl⟩ := hmem
    obtain ⟨r', hr', hw⟩ := h.exists_of_mem he
    obtain rfl := hr.2 r' hr' (hw.rawName.symm.trans hraw)
    have hslot := slotReadsBack_of_blobWritten (hw.blob which) fun c hc =>
      hscope.stored_lt c (mem_of_lastSet hr.1 hc)
    have hblob := hw.blob which
    rw [hlast] at hslot hblob
    obtain ⟨blob, hnew, hback⟩ := hslot
    obtain ⟨hlow, hhigh⟩ := offs_of_blobWritten hblob hnew
    exact ⟨_, blob, hfind, (slotBlob_recordOf e' which).trans hnew, hback, hlow, hhigh⟩

/-- **Every file of a finished V1 shard reads back**: as in a V2 shard, and empty files as well. A file
is what was set last as the metadata or the data of a record. -/
theorem written_contents_read_back {gv : GVariantFormat} (hgv : gv.Lawful) (prev : Bytes)
    {ops : List (Op env)}
    {w w' : WriterV1 env} {log : List Write} (hrun : run writerV1New ops = some w)
    (hwrite : writeToFd gv w = some (w', log)) (hscope : InScope ops)
    (hlt : (applyWrites prev log).length < 2 ^ 63) :
    ∃ impl, (∀ heap, detectVersion gv heap (applyWrites prev log) = .ok (.v1 impl)) ∧
      ∀ r which c, NamedOnce ops r → lastSet which r.2 = some c →
        ∃ rec blob, findRecordByRawName impl (rawNameOf r.1) = some rec ∧
          slotBlob rec which = some blob ∧
          ContentsReadBack env (applyWrites prev log) c.file c.flags blob := by
  have h := finished_of_run hgv prev hrun hwrite hscope.utf8
  refine ⟨_, h.detectVersion hgv, fun r which c hr hlast => ?_⟩
  obtain ⟨rec, blob, hat⟩ := h.attached hscope hr hlast
  refine ⟨rec, blob, hat.find, hat.lookup, hat.readsBack.contents hlt ?_ hat.offs_lt⟩
  have hle := hat.le_offs
  omega

/-- The compressed file of the archive comes out of it. -/
theorem written_contents_read_back_zipped : ∃ w w' log impl rec blob,
    run writerV1New archiveRun = some w ∧ writeToFd gvariant w = some (w', log) ∧
    (∀ heap, detectVersion gvariant heap (applyWrites [] log) = .ok (.v1 impl)) ∧
    findRecordByRawName impl (rawNameOf lastName) = some rec ∧ slotBlob rec .data = some blob ∧
    ContentsReadBack smallEnv (applyWrites [] log) oneFile .compressedZlib blob := by
  have hsome : ((run writerV1New archiveRun).bind fun w => (writeToFd gvariant w).map fun p =>
      decide ((applyWrites [] p.2).length < 2 ^ 63)) = some true := by decide +kernel
  obtain ⟨w, hrun, hmap⟩ := Option.bind_eq_some_iff.mp hsome
  obtain ⟨⟨w', log⟩, hwrite, hlt⟩ := Option.map_eq_some_iff.mp hmap
  have hscope : InScope archiveRun :=
    ⟨fun c hc => (callsOk_archiveRun c hc).1, fun c hc => (callsOk_archiveRun c hc).2⟩
  obtain ⟨impl, hopen, hfiles⟩ := written_contents_read_back gvariant_lawful [] hrun hwrite hscope
    (of_decide_eq_true hlt)
  have honce : NamedOnce archiveRun (lastName, [zippedCall, metadataCall oneFile (by decide)]) := by
    refine ⟨List.mem_cons_self, fun r hr hraw => ?_⟩
    rcases List.mem_cons.mp hr with rfl | hr
    · rfl
    · rcases List.mem_cons.mp hr with rfl | hr
      · exact absurd hraw (by decide +kernel)
      · rw [List.mem_singleton.mp hr] at hraw
        exact absurd hraw (by decide +kernel)
  obtain ⟨rec, blob, hread⟩ := hfiles _ .data zippedCall honce rfl
  exact ⟨w, w', log, impl, rec, blob, hrun, hwrite, hopen, hread⟩

end V1

end EosShard
