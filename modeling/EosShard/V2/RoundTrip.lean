import EosShard.V2.Filed

/-!
# The V2 round trip

A shard that was written reads back as what was put into it.

* `Written f ops w`: the file `f` has the layout of the writer `w` and the data of the calls. It is
  what `run` and `finish` establish on any previous contents (`written_finish`), and all that the
  reader needs.
* It is filed (`Written.filed`), and its data fits the fields of the blob headers
  (`Written.sblob_fits`); with that each lookup reads back (`Written.readBlob`).
* `finished_reads_back`: the whole archive, for every run.
-/

namespace EosShard.V2

open EosShard.Found

variable {env : Env}

/-! ## What has been written -/

/-- A call and its entry, in the file. -/
structure EntryWritten (f : Bytes) (w : WriterV2) (c : AddBlob env) (b : BlobEntry) : Prop where
  carries : Carries c b
  name_mem : c.name ∈ w.cpool.strings
  type_mem : c.type ∈ w.cpool.strings
  nameOffs : b.sblob.nameOffs = poolOffset w.cpool.strings c.name
  contentTypeOffs : b.sblob.contentTypeOffs = poolOffset w.cpool.strings c.type
  end_le : b.sblob.dataStart + c.stored.length ≤ w.ctxOffset
  holds : Holds f b.sblob.dataStart c.stored

/-- The file of a finished run that stays below 4 GiB. -/
structure Written (f : Bytes) (ops : List (Op env)) (w : WriterV2) : Prop where
  laidOut : LaidOut f w
  entries : ∀ (i : ℕ) (c : AddBlob env), (calls ops)[i]? = some c →
    ∃ b, w.blobs[i]? = some b ∧ EntryWritten f w c b
  length_blobs : w.blobs.length = (calls ops).length
  records : RecordsOk ops w
  end_lt : shardEnd w < 2 ^ 32
  records_lt : w.records.length * Record.sizeof < 2 ^ 31
  attached_le : ∀ r, (attachedIds ops r).length ≤ 255

/-- **A finished run has been written**, whatever the file contained before. -/
theorem written_finish (prev : Bytes) {ops : List (Op env)} {w : WriterV2} {log : List Write}
    (hrun : run writerV2New ops = some (w, log)) (hend : shardEnd w < 2 ^ 32)
    (hrec : w.records.length * Record.sizeof < 2 ^ 31)
    (hatt : ∀ r, (attachedIds ops r).length ≤ 255) (hcol : CollisionFree (calls ops)) :
    Written (applyWrites prev (log ++ finish w)) ops w := by
  have hw := history_of_run hrun
  obtain ⟨h₁, h₂, -, h₃, h₄⟩ := regions_le w
  have hoff : w.ctxOffset < 2 ^ 32 := by omega
  have hpool : (poolBytes w.cpool.strings).length ≤ 2 ^ 32 := by
    unfold shardEnd at hend
    omega
  obtain ⟨hlaid, hkeep⟩ := laidOut_finish (applyWrites prev log) hw.header_le
  rw [← applyWrites_append] at hlaid hkeep
  have hplaced : Placed prev ops w log := by
    rcases placed_or_not_sameOffsets prev hrun (by omega) hcol with ⟨-, h⟩ | ⟨h, -⟩
    · exact h
    · exact absurd (stepsFit_of_lt hrun hoff hpool) h
  refine ⟨hlaid, ?_, hw.length_blobs, records_of_run hrun, hend, hrec, hatt⟩
  intro i c hc
  have hi : i < w.blobs.length := by
    rw [hw.length_blobs]
    exact (List.getElem?_eq_some_iff.mp hc).1
  have hb : w.blobs[i]? = some w.blobs[i] := List.getElem?_eq_getElem hi
  have hmem : (c, w.blobs[i]) ∈ placements ops w :=
    List.mem_of_getElem? (List.getElem?_zip_eq_some.mpr ⟨hc, hb⟩)
  obtain ⟨b, hb', hcarries⟩ := exists_getElem?_of_forall₂ hw.carries hc
  rw [hb] at hb'
  cases hb'
  obtain ⟨hname, htype⟩ := hw.strings c (List.mem_of_getElem? hc)
  obtain ⟨hno, hco⟩ := hplaced.strings _ hmem
  obtain ⟨hlow, hhigh⟩ := hplaced.bounds _ hmem
  exact ⟨_, hb, hcarries, hname, htype, hno, hco, hhigh,
    hkeep _ _ hlow hhigh (hplaced.holds _ hmem)⟩

namespace Written

variable {f : Bytes} {ops : List (Op env)} {w : WriterV2}

/-- Whatever reads a finished run back reads this one. -/
theorem filed (h : Written f ops w) : Filed f ops w where
  laidOut := h.laidOut
  carries := by
    rw [List.forall₂_iff_get]
    refine ⟨h.length_blobs.symm, fun i hi hi' => ?_⟩
    obtain ⟨b, hb, hbw⟩ := h.entries i _ (List.getElem?_eq_getElem hi)
    rw [List.getElem?_eq_getElem hi'] at hb
    cases hb
    exact hbw.carries
  strings := by
    intro p hp
    obtain ⟨i, hi⟩ := List.getElem?_of_mem hp
    obtain ⟨hc, hb⟩ := List.getElem?_zip_eq_some.mp hi
    obtain ⟨b, hb', hbw⟩ := h.entries i _ hc
    rw [hb] at hb'
    cases hb'
    exact ⟨hbw.name_mem, hbw.type_mem, fun _ => ⟨hbw.nameOffs, hbw.contentTypeOffs⟩⟩
  records := h.records
  end_lt := h.end_lt.trans (by norm_num)

/-- The pool takes at most 4 GiB. -/
theorem length_pool_le (h : Written f ops w) : (poolBytes w.cpool.strings).length ≤ 2 ^ 32 := by
  have hend : stringTableStart w + (poolBytes w.cpool.strings).length < 2 ^ 32 := h.end_lt
  omega

/-- The file is recognised and opens. -/
theorem detectVersion (h : Written f ops w) (gv : V1.GVariantFormat) (heap : Heap) :
    detectVersion gv heap f = .ok (.v2 (implOf f w)) := by
  rw [h.laidOut.detectVersion_eq, h.laidOut.implV2New h.filed.end_lt h.records_lt]
  rfl

/-! ## Blobs -/

/-- The fields of a blob's header fit. -/
theorem sblob_fits (h : Written f ops w) {c : AddBlob env} {b : BlobEntry}
    (hb : EntryWritten f w c b) : b.sblob.Fits := by
  obtain ⟨h₁, h₂, -, h₃, h₄⟩ := regions_le w
  have hend : stringTableStart w + (poolBytes w.cpool.strings).length < 2 ^ 32 := h.end_lt
  have hle := hb.end_le
  have hname := poolOffset_lt hb.name_mem
  have htype := poolOffset_lt hb.type_mem
  have hsize := c.file.size_lt
  refine ⟨?_, ?_, ?_, ?_, ?_, ?_⟩
  · rw [hb.carries.flags]
    cases c.flags <;> decide
  · rw [hb.nameOffs]
    omega
  · rw [hb.contentTypeOffs]
    omega
  · rw [hb.carries.size]
    omega
  · rw [hb.carries.uncompressedSize]
    omega
  · omega

/-- A blob that is not empty reads back. -/
theorem blobNew (h : Written f ops w) {c : AddBlob env} {b : BlobEntry}
    (hb : EntryWritten f w c b) (htype : c.type.length < maxContentTypeSize) :
    LookupReadsBack f (some c) (blobNew (implOf f w) b.sblob) := by
  simp only [LookupReadsBack, V2.blobNew]
  have hnil : b.sblob.uncompressedSize = 0 ↔ c.file.contents = [] := by
    rw [hb.carries.uncompressedSize, List.length_eq_zero_iff]
  by_cases hc : c.file.contents = []
  · simp only [hc, hnil.mpr hc, if_true]
  · have hoff := h.filed.bounds.1
    have hle := hb.end_le
    obtain ⟨buf, hlook, hcut, -⟩ := h.filed.lookupStringConstant h.laidOut.loaded_implOf.toOpened
      hb.type_mem (show 1 < maxContentTypeSize by norm_num)
    have hcstr : cstr buf = c.type := by
      apply CString.ext
      rw [hcut]
      exact List.take_of_length_le (Nat.le_sub_one_of_lt htype)
    rw [if_neg hc, if_neg fun h0 => hc (hnil.mp h0), hb.contentTypeOffs, hlook]
    refine ⟨_, rfl, blobReadsBack_of_holds hcstr hb.carries.flags hb.carries.csum hb.carries.size
      hb.carries.uncompressedSize hb.holds ?_⟩
    show b.sblob.dataStart < 2 ^ 63
    omega

/-- Every lookup in the record of `r` reads back. -/
theorem readBlob (h : Written f ops w) {r : ℕ} {hexName : CString} {e' : RecordEntry}
    (ht : TableWritten f (finishedBlobs w) (archiveEntry ops r hexName) e')
    (he : e' ∈ finishedRecords w)
    (htype : ∀ c ∈ calls ops, c.type.length < maxContentTypeSize) (name : CString) :
    LookupReadsBack f (firstAttached ops r name) (readBlob (implOf f w) e'.srecord name) := by
  rw [V2.readBlob, h.filed.findBlob h.laidOut.loaded_implOf.toOpened h.length_pool_le ht he
    (h.attached_le r), h.filed.firstAttached_eq]
  cases hf : (attachedIds ops r).find? fun i => ((finishedBlobs w).getD i default).name = name with
  | none => rfl
  | some i =>
      obtain ⟨c, -, hc, -⟩ := h.filed.attached_entry (List.mem_of_find?_eq_some hf)
      obtain ⟨b, hb, hbw⟩ := h.entries i c hc
      rw [Option.bind_some, hc, Option.map_some, Filed.finishedBlobs_getD w hb,
        Blob.reread_of_fits (h.sblob_fits hbw)]
      exact h.blobNew (b := b) hbw (htype c (List.mem_of_getElem? hc))

/-! ## The archive -/

/-- The record objects of the shard. -/
def recsOf (f : Bytes) (w : WriterV2) : List (EosShardRecord Record) :=
  (finishedRecords w).map fun e => recordOf (implOf f w) e.srecord

/-- A listing has the records of the table. -/
theorem listRecords_eq (h : Written f ops w) :
    listRecords (implOf f w) = (recsOf f w).map some := by
  rw [h.filed.listRecords_eq h.laidOut.loaded_implOf h.records_lt, recsOf, List.map_map]
  rfl

/-- Every record object is that of its record. -/
theorem forall₂_recordReadsBack (h : Written f ops w)
    (htype : ∀ c ∈ calls ops, c.type.length < maxContentTypeSize) :
    List.Forall₂ (RecordReadsBack f (implOf f w) ops) (tableOrder ops) (recsOf f w) := by
  have htables := h.filed.forall₂_tableWritten
  rw [List.forall₂_iff_zip] at htables
  rw [recsOf, List.forall₂_map_right_iff, List.forall₂_iff_zip]
  refine ⟨htables.1, ?_⟩
  intro r e' hzip
  have ht := htables.2 hzip
  obtain ⟨hr, he⟩ := List.of_mem_zip hzip
  have hr' : r < (recordNames ops).length := by
    rw [tableOrder, List.mem_insertionSort] at hr
    exact List.mem_range.mp hr
  refine ⟨?_, fun name hname => ?_, h.readBlob ht he htype _, h.readBlob ht he htype _⟩
  · rw [List.getElem?_eq_getElem hr', Option.map_some, ← List.getD_eq_getElem _ .empty hr']
    exact congrArg some ht.rawName.symm
  · rw [lookupBlob, if_neg hname]
    exact h.readBlob ht he htype name

/-- **The opened shard reads back** as the archive that was written. -/
theorem roundTrip (h : Written f ops w)
    (htype : ∀ c ∈ calls ops, c.type.length < maxContentTypeSize) :
    RoundTrip f (implOf f w) ops where
  list := by
    have hnames : (recsOf f w).map (·.rawName) = (finishedRecords w).map RecordEntry.rawName := by
      rw [recsOf, List.map_map]
      rfl
    have hle := h.filed.rawNames_pairwise
    rw [← hnames, List.pairwise_map] at hle
    refine ⟨tableOrder ops, recsOf f w, List.perm_insertionSort _ _, h.listRecords_eq,
      h.forall₂_recordReadsBack htype, hle, fun hnodup => ?_⟩
    have hne := h.filed.rawNames_perm.nodup_iff.mpr hnodup
    rw [← hnames, List.Nodup, List.pairwise_map] at hne
    exact hle.imp₂ (fun a b hab hne => lt_of_le_of_ne hab fun he => hne (List.Vector.eq _ _ he)) hne
  find_none := h.filed.findRecordByRawName_eq_none_iff h.laidOut.loaded_implOf
  find_some := fun x rec hf => by
    obtain ⟨hname, e, he, rfl⟩ := h.filed.findRecordByRawName_eq_some h.laidOut.loaded_implOf hf
    refine ⟨hname, ?_⟩
    rw [h.listRecords_eq, recsOf]
    exact List.mem_map_of_mem (List.mem_map_of_mem he)

end Written

/-! ## The round trip -/

/-- **A V2 shard reads back as it was written**, on top of any previous contents of the file: it is
recognised, it opens, and the listing, the search and every lookup answer what the calls put in.
Scope: the fields that hold the sizes are wide enough, and no two contents have one checksum. -/
theorem finished_reads_back (prev : Bytes) {ops : List (Op env)} {w : WriterV2} {log : List Write}
    (hrun : run writerV2New ops = some (w, log)) (hend : shardEnd w < 2 ^ 32)
    (hrec : (recordNames ops).length * Record.sizeof < 2 ^ 31)
    (hatt : ∀ r, (attachedIds ops r).length ≤ 255)
    (htype : ∀ c ∈ calls ops, c.type.length < maxContentTypeSize)
    (hcol : CollisionFree (calls ops)) :
    ∃ impl, (∀ gv heap, detectVersion gv heap (applyWrites prev (log ++ finish w)) =
        .ok (.v2 impl)) ∧
      RoundTrip (applyWrites prev (log ++ finish w)) impl ops := by
  have hlen : w.records.length = (recordNames ops).length := by
    rw [(records_of_run hrun).records, List.length_mapIdx]
  have h := written_finish prev hrun hend (hlen ▸ hrec) hatt hcol
  exact ⟨_, h.detectVersion, h.roundTrip htype⟩

/-! ## An archive of two records -/

/-- The byte 1, compressed. -/
def zippedCall : AddBlob smallEnv :=
  smallCall ⟨ascii "zipped", by decide⟩ oneFile .compressedZlib (by decide) (by decide)

/-- An empty file. -/
def emptyCall : AddBlob smallEnv where
  name := ⟨ascii "empty", by decide⟩
  file := emptyFile
  contentType := none
  flags := .none
  reads := []
  reads_flatten := rfl
  reads_size := by simp

/-- Two records, added against the order of their names, the second one with three blobs. -/
def archiveRun : List (Op smallEnv) :=
  [.addRecord lastName,
    .addRecord digitsName,
    .addBlob dataCall, .addBlob zippedCall, .addBlob emptyCall,
    .addBlobToRecord 1 1, .addBlobToRecord 1 0, .addBlobToRecord 1 2]

/-- The archive on top of any file. -/
theorem written_archiveRun (prev : Bytes) : ∃ w log, run writerV2New archiveRun = some (w, log) ∧
    Written (applyWrites prev (log ++ finish w)) archiveRun w := by
  have hend : ((run writerV2New archiveRun).map fun p =>
      decide (shardEnd p.1 < 2 ^ 32 ∧ p.1.records.length * Record.sizeof < 2 ^ 31)) = some true := by
    decide +kernel
  obtain ⟨⟨w, log⟩, hrun, hlt⟩ := Option.map_eq_some_iff.mp hend
  obtain ⟨hend, hrec⟩ := of_decide_eq_true hlt
  refine ⟨w, log, hrun, written_finish prev hrun hend hrec (fun r => ?_) ?_⟩
  · exact (List.length_filterMap_le _ _).trans (by decide)
  · unfold CollisionFree
    decide +kernel

/-- The archive goes on top of a file of eight bytes. -/
theorem finished_reads_back_archiveRun :
    ∃ w log impl, run writerV2New archiveRun = some (w, log) ∧
      (∀ gv heap, detectVersion gv heap (applyWrites (List.replicate 8 255) (log ++ finish w)) =
        .ok (.v2 impl)) ∧
      RoundTrip (applyWrites (List.replicate 8 255) (log ++ finish w)) impl archiveRun := by
  obtain ⟨w, log, hrun, h⟩ := written_archiveRun (List.replicate 8 255)
  obtain ⟨impl, himpl⟩ := finished_reads_back (List.replicate 8 255) hrun h.end_lt (by decide)
    h.attached_le (by decide) (by unfold CollisionFree; decide +kernel)
  exact ⟨w, log, impl, hrun, himpl⟩

/-- The empty file is attached to record 1, and a lookup there does not find it: a blob without data
is `NULL`. -/
theorem emptyCall_reads_null :
    ∃ w log impl rec, run writerV2New archiveRun = some (w, log) ∧
      (∀ gv heap, detectVersion gv heap (applyWrites [] (log ++ finish w)) = .ok (.v2 impl)) ∧
      some rec ∈ listRecords impl ∧ (recordNames archiveRun)[1]?.map rawNameOf = some rec.rawName ∧
      (firstAttached archiveRun 1 emptyCall.name).isSome = true ∧
      lookupBlob impl rec emptyCall.name = none := by
  obtain ⟨w, log, hrun, h⟩ := written_archiveRun []
  have hrecs := h.forall₂_recordReadsBack (by decide)
  have horder : tableOrder archiveRun = [1, 0] := by decide +kernel
  rw [horder] at hrecs
  cases hlist : Written.recsOf (applyWrites [] (log ++ finish w)) w with
  | nil =>
      rw [hlist] at hrecs
      cases hrecs
  | cons rec recs =>
      rw [hlist] at hrecs
      obtain ⟨hrec, -⟩ := List.forall₂_cons.mp hrecs
      refine ⟨w, log, _, rec, hrun, h.detectVersion, ?_, hrec.rawName, by decide +kernel, ?_⟩
      · rw [h.listRecords_eq, hlist]
        exact List.mem_cons_self
      · have hlook := hrec.lookup emptyCall.name (by decide)
        have hfirst : (firstAttached archiveRun 1 emptyCall.name).map (·.file.contents) =
            some [] := by decide +kernel
        obtain ⟨c, hc, hnil⟩ := Option.map_eq_some_iff.mp hfirst
        rw [hc] at hlook
        simpa only [LookupReadsBack, hnil, if_true] using hlook

end EosShard.V2
