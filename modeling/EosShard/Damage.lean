import EosShard.Contents

/-!
# What the checksums guard

A shard keeps a checksum of the stored bytes of every blob, and `load_contents` compares it. A damaged
shard is a file that agrees with the finished one except where the data of the blobs lies. The reader
finds the same records and blobs in it.

* `SameAnswers`: two opened shards answer every search and every listing alike.
* `Guarded`: the load of a blob gives what it gave before, or fails, or has taken other bytes of the same
  checksum; the stream of the blob hands on whatever is there.
* `V2.damage_detected` and `V1.written_damage_detected`: **every blob of a damaged shard is guarded**.
-/

namespace EosShard

open EosShard.Found

/-- What a load takes for the stored bytes of a blob: what the read does not fill stays as it was. -/
def taken (heap : Heap) (g : Bytes) (blob : EosShardBlob) : Bytes :=
  overlay (heap blob.size).toList (slice g blob.offs blob.size)

/-- The error of a load whose bytes do not match. -/
def checksumMismatch : Failure :=
  .gerror ⟨.blobChecksumMismatch, "Could not load blob: checksum did not match"⟩

/-- A blob of the file `f`, with the given stored bytes, in the damaged file `g`. -/
structure Guarded (env : Env) (f g : Bytes) (blob : EosShardBlob) (stored : Bytes) : Prop where
  /-- Bytes that are as they were load as they did. -/
  intact : ∀ inflate heap, taken heap g blob = stored →
    loadBlob env inflate heap g blob = loadBlob env inflate heap f blob
  /-- Others fail, if their checksum differs. -/
  detected : ∀ inflate heap, env.sha256 (taken heap g blob) ≠ env.sha256 stored →
    loadBlob env inflate heap g blob = .error checksumMismatch
  /-- The stream does not look: it yields what is there. -/
  unseen : isCompressedZlib blob.flags = false → (slice g blob.offs blob.size).length = blob.size →
    ∀ decompress chunk calls counts, (∀ c ∈ calls, 0 < c.1 ∧ c.2.Lawful g ∧ c.2.Full g) →
      blob.size < calls.length →
      readStream decompress chunk blob calls counts = some (slice g blob.offs blob.size)

section guarded

variable {env : Env} {f g : Bytes} {type : CString} {file : GFile} {how : EosShardBlobFlags}
  {blob : EosShardBlob}

/-- A blob that is in the file in full is taken as it is there. -/
theorem taken_of_full {heap : Heap} (hfull : (slice g blob.offs blob.size).length = blob.size) :
    taken heap g blob = slice g blob.offs blob.size :=
  overlay_full (by rw [List.Vector.toList_length, hfull])

/-- A load, in terms of the bytes that it takes. -/
theorem loadBlob_eq (hsize : blob.size < 2 ^ 63) (hlow : blob.offs < 2 ^ 63)
    (inflate : Bytes → ℕ → Option Bytes) (heap : Heap) (g : Bytes) :
    loadBlob env inflate heap g blob =
      if env.sha256 (taken heap g blob) ≠ blob.checksum then .error checksumMismatch
      else if isCompressedZlib blob.flags then .ok (inflate (taken heap g blob) blob.uncompressedSize)
      else .ok (some (taken heap g blob)) := by
  unfold loadBlob
  rw [if_neg (not_le.mpr hsize), Found.pread_eq hlow]
  rfl

/-- **Every blob that has been written is guarded**, whatever becomes of the file. -/
theorem BlobReadsBack.guarded (h : BlobReadsBack env f type file how blob) (hpos : blob.offs ≠ 0)
    (hlow : blob.offs < 2 ^ 63) (hlen : (env.stored file how).length < 2 ^ 63)
    (hg : g.length < 2 ^ 63) : Guarded env f g blob (env.stored file how) := by
  have hsize : blob.size < 2 ^ 63 := h.size ▸ hlen
  have hslice : slice f blob.offs blob.size = env.stored file how := h.holds.slice_eq h.size
  refine ⟨fun inflate heap hsame => ?_, fun inflate heap hne => ?_,
    fun hflags hfull decompress chunk calls counts hcalls hlt => ?_⟩
  · have hf : taken heap f blob = env.stored file how := by
      rw [taken_of_full (by rw [hslice, h.size]), hslice]
    rw [loadBlob_eq hsize hlow, loadBlob_eq hsize hlow, hsame, hf]
  · rw [loadBlob_eq hsize hlow, if_pos (h.checksum.symm ▸ hne)]
  · have hstream : getStream blob = some (.stored (.newForBlob blob)) := by
      unfold getStream
      rw [if_neg hpos, hflags]
      rfl
    rw [readStream, hstream]
    exact (EosShardBlobStream.readUntilEnd_readCall (EosShardBlobStream.inside_newForBlob blob) rfl
      hsize hg (Found.pread_eq hlow) hfull hcalls).2 hlt

end guarded

/-! ## V2 -/

namespace V2

variable {env : Env} {f g : Bytes} {ops : List (Op env)} {w : WriterV2}

/-- The two opened shards answer alike. -/
structure SameAnswers (impl impl' : ShardFileImplV2) : Prop where
  list : listRecords impl' = listRecords impl
  find : ∀ x, findRecordByRawName impl' x = findRecordByRawName impl x
  lookup : ∀ rec, some rec ∈ listRecords impl → ∀ name,
    lookupBlob impl' rec name = lookupBlob impl rec name
  blobs : ∀ rec, some rec ∈ listRecords impl → listBlobs impl' rec = listBlobs impl rec

/-- The library hands out the blob for the record. -/
def HandsOut (impl : ShardFileImplV2) (rec : EosShardRecord Record) (blob : EosShardBlob) : Prop :=
  (∃ name, PublicName name ∧ blobOfName impl rec name = some blob) ∨ some blob ∈ listBlobs impl rec

/-- The positions in front of and behind the data. -/
def Metadata (w : WriterV2) (i : ℕ) : Prop := i < Hdr.sizeof ∨ w.ctxOffset ≤ i

/-- **The file is that of a finished run** wherever the data was damaged: the writes of `finish` would
change nothing in it. -/
theorem filed_of_sameOn {prev : Bytes} {log : List Write}
    (hrun : run writerV2New ops = some (w, log)) (hend : shardEnd w < 2 ^ 63)
    (hsame : SameOn (Metadata w) (applyWrites prev (log ++ finish w)) g) : Filed g ops w := by
  have hw := history_of_run hrun
  have hheld : ∀ x ∈ finish w, Holds g x.off x.data := by
    intro x hx
    have hf : Holds (applyWrites prev (log ++ finish w)) x.off x.data := by
      rw [applyWrites_append]
      exact holds_applyWrites_of_mem _ (apartWrites_finish hw.header_le) hx
    refine hsame.holds (fun i hlo hhi => ?_) hf
    obtain ⟨ws, hfinish, hfrom⟩ := finish_eq_concat w
    rcases (behind_of_writesFrom hfrom (le_refl _)).append (behind_header _ w) x (hfinish ▸ hx)
      with h | h
    · exact Or.inr (h.trans hlo)
    · exact Or.inl (hhi.trans_le h)
  have hlaid := (laidOut_finish g hw.header_le).1
  rw [applyWrites_of_holds hheld] at hlaid
  exact ⟨hlaid, hw.carries, stringsPlaced_of_run hrun, records_of_run hrun, hend⟩

section sameOn

variable (hsame : SameOn (Metadata w) f g)

include hsame

/-- What lies behind the data is read alike. -/
theorem slice_of_sameOn {off n : ℕ} (hoff : w.ctxOffset ≤ off) : slice g off n = slice f off n :=
  hsame.slice_eq fun _ hi _ => Or.inr (hoff.trans hi)

/-- The reader of a file that agrees. -/
theorem implOf_of_sameOn : implOf g w = { implOf f w with fd := g } := by
  obtain ⟨h₁, h₂, -⟩ := regions_le w
  unfold implOf
  rw [slice_of_sameOn hsame (h₁.trans h₂)]

/-- The strings of a file that agrees. -/
theorem lookupStringConstant_of_sameOn (bufSize : ℕ) {offs : ℕ}
    (hoffs : stringTableStart w + offs < 2 ^ 63) :
    lookupStringConstant (implOf g w) bufSize offs = lookupStringConstant (implOf f w) bufSize offs := by
  obtain ⟨h₁, h₂, -, h₃, -⟩ := regions_le w
  have hread : pread g (bufSize - 1) (stringTableStart w + offs) =
      pread f (bufSize - 1) (stringTableStart w + offs) := by
    rw [pread_eq hoffs, pread_eq hoffs, slice_of_sameOn hsame (by omega)]
  have hfd : (implOf g w).fd = g := rfl
  have hfd' : (implOf f w).fd = f := rfl
  have hstart : (implOf g w).hdr.stringConstantTableStart = stringTableStart w := rfl
  have hstart' : (implOf f w).hdr.stringConstantTableStart = stringTableStart w := rfl
  unfold lookupStringConstant
  rw [hfd, hfd', hstart, hstart', hread]

end sameOn

/-- Both files have the blob table of a record. -/
theorem exists_tables (h : Filed f ops w) (hg : Filed g ops w) {e' : RecordEntry}
    (he : e' ∈ finishedRecords w) : ∃ r,
      TableWritten f (finishedBlobs w) (archiveEntry ops r ((recordNames ops).getD r .empty)) e' ∧
      TableWritten g (finishedBlobs w) (archiveEntry ops r ((recordNames ops).getD r .empty)) e' := by
  obtain ⟨k, hk⟩ := List.getElem?_of_mem he
  obtain ⟨r, hr, ht⟩ := exists_getElem?_of_forall₂ h.forall₂_tableWritten.flip hk
  obtain ⟨r', hr', ht'⟩ := exists_getElem?_of_forall₂ hg.forall₂_tableWritten.flip hk
  obtain rfl : r = r' := Option.some.inj (hr.symm.trans hr')
  exact ⟨r, ht, ht'⟩

section answers

variable (h : Written f ops w) (hg : Filed g ops w) (hsame : SameOn (Metadata w) f g)

include h hsame

/-- The blobs of a file that agrees. -/
theorem blobNew_of_sameOn {c : AddBlob env} {b : BlobEntry} (hb : EntryWritten f w c b) :
    blobNew (implOf g w) b.sblob = blobNew (implOf f w) b.sblob := by
  have hend : stringTableStart w + (poolBytes w.cpool.strings).length < 2 ^ 32 := h.end_lt
  have hlt := poolOffset_lt hb.type_mem
  rw [← hb.contentTypeOffs] at hlt
  unfold blobNew
  rw [lookupStringConstant_of_sameOn hsame _ (by omega)]

include hg

/-- The lookups in a record are those of the undamaged shard. -/
theorem readBlob_of_sameOn {e' : RecordEntry} (he : e' ∈ finishedRecords w) (name : CString) :
    readBlob (implOf g w) e'.srecord name = readBlob (implOf f w) e'.srecord name := by
  obtain ⟨r, ht, ht'⟩ := exists_tables h.filed hg he
  unfold readBlob
  rw [h.filed.findBlob h.laidOut.loaded_implOf.toOpened h.length_pool_le ht he (h.attached_le r),
    hg.findBlob hg.laidOut.loaded_implOf.toOpened h.length_pool_le ht' he (h.attached_le r)]
  rcases hf : (attachedIds ops r).find? fun i => ((finishedBlobs w).getD i default).name = name
    with _ | i
  · rfl
  · obtain ⟨c, -, hc, -⟩ := h.filed.attached_entry (List.mem_of_find?_eq_some hf)
    obtain ⟨b, hb, hbw⟩ := h.entries i c hc
    simp only [Option.map_some, Filed.finishedBlobs_getD w hb, Blob.reread_of_fits (h.sblob_fits hbw)]
    exact blobNew_of_sameOn h hsame hbw

/-- The records of a file that agrees. -/
theorem recordOf_of_sameOn {e' : RecordEntry} (he : e' ∈ finishedRecords w) :
    recordOf (implOf g w) e'.srecord = recordOf (implOf f w) e'.srecord := by
  unfold recordOf
  rw [readBlob_of_sameOn h hg hsame he, readBlob_of_sameOn h hg hsame he]

/-- The headers of a blob table, as they are listed. -/
theorem listBlobs_of_sameOn {e' : RecordEntry} (he : e' ∈ finishedRecords w) :
    listBlobs (implOf g w) (recordOf (implOf f w) e'.srecord) =
      listBlobs (implOf f w) (recordOf (implOf f w) e'.srecord) := by
  obtain ⟨r, ht, ht'⟩ := exists_tables h.filed hg he
  have hdata : (recordOf (implOf f w) e'.srecord).privateData = e'.srecord := rfl
  rw [listBlobs_eq, listBlobs_eq, hdata,
    h.filed.tableEntries_eq h.laidOut.loaded_implOf.toOpened ht he,
    hg.tableEntries_eq hg.laidOut.loaded_implOf.toOpened ht' he]
  congr 1
  rw [List.map_map, List.map_map]
  refine List.map_congr_left fun i hi => ?_
  have hmem := (List.mem_insertionSort _).mp (List.mem_of_mem_take hi)
  obtain ⟨c, -, hc, -⟩ := h.filed.attached_entry hmem
  obtain ⟨b, hb, hbw⟩ := h.entries i c hc
  simp only [Function.comp_apply, headerAt, Filed.finishedBlobs_getD w hb,
    Blob.reread_of_fits (h.sblob_fits hbw)]
  exact blobNew_of_sameOn h hsame hbw

/-- **The damaged shard answers as the undamaged one.** -/
theorem sameAnswers : SameAnswers (implOf f w) (implOf g w) := by
  have hf := h.laidOut.loaded_implOf
  have hlisted : ∀ rec, some rec ∈ listRecords (implOf f w) → ∃ e ∈ finishedRecords w,
      recordOf (implOf f w) e.srecord = rec := by
    intro rec hrec
    rw [h.filed.listRecords_eq hf h.records_lt] at hrec
    obtain ⟨e, he, heq⟩ := List.mem_map.mp hrec
    exact ⟨e, he, Option.some.inj heq⟩
  refine ⟨?_, fun x => ?_, fun rec hrec name => ?_, fun rec hrec => ?_⟩
  · rw [h.filed.listRecords_eq hf h.records_lt,
      hg.listRecords_eq hg.laidOut.loaded_implOf h.records_lt]
    exact List.map_congr_left fun e he => congrArg some (recordOf_of_sameOn h hg hsame he)
  · have hcompar : findRecordByRawNameCompar (implOf g w) x =
        findRecordByRawNameCompar (implOf f w) x := by
      rw [implOf_of_sameOn hsame]
      rfl
    rw [h.filed.findRecordByRawName_eq hf, hg.findRecordByRawName_eq hg.laidOut.loaded_implOf, hcompar]
    refine Option.map_congr fun i hi => ?_
    have hlt := (bsearch_sound hi).2.1
    rw [h.filed.recordAt_of_loaded hf (List.getElem?_eq_getElem hlt),
      hg.recordAt_of_loaded hg.laidOut.loaded_implOf (List.getElem?_eq_getElem hlt)]
    exact recordOf_of_sameOn h hg hsame (List.getElem_mem hlt)
  · obtain ⟨e, he, rfl⟩ := hlisted rec hrec
    unfold lookupBlob
    rw [show (recordOf (implOf f w) e.srecord).privateData = e.srecord from rfl,
      readBlob_of_sameOn h hg hsame he]
  · obtain ⟨e, he, rfl⟩ := hlisted rec hrec
    exact listBlobs_of_sameOn h hg hsame he

end answers

/-- What is handed out is made of one of the writer's entries. -/
theorem Written.entry_of_handsOut (h : Written f ops w) {rec : EosShardRecord Record}
    (hrec : some rec ∈ listRecords (implOf f w)) {blob : EosShardBlob}
    (hout : HandsOut (implOf f w) rec blob) :
    ∃ c b, c ∈ calls ops ∧ b ∈ w.blobs ∧ EntryWritten f w c b ∧
      V2.blobNew (implOf f w) b.sblob = some blob := by
  rw [h.filed.listRecords_eq h.laidOut.loaded_implOf h.records_lt] at hrec
  obtain ⟨e', he, heq⟩ := List.mem_map.mp hrec
  obtain rfl := Option.some.inj heq
  rcases hout with ⟨name, hname, hblob⟩ | hblob
  · rw [blobOfName_recordOf _ _ hname] at hblob
    exact h.entry_of_readBlob he hblob
  · obtain ⟨k, hk⟩ := List.getElem?_of_mem he
    obtain ⟨r, -, ht⟩ := exists_getElem?_of_forall₂ h.filed.forall₂_tableWritten.flip hk
    have hperm := h.filed.listBlobs_perm h.laidOut.loaded_implOf.toOpened ht he (h.attached_le r)
    obtain ⟨i, hi, hnew⟩ := List.mem_map.mp (hperm.mem_iff.mp hblob)
    obtain ⟨c, -, hc, -⟩ := h.filed.attached_entry hi
    obtain ⟨b, hb, hbw⟩ := h.entries i c hc
    rw [headerAt, Filed.finishedBlobs_getD w hb, Blob.reread_of_fits (h.sblob_fits hbw)] at hnew
    exact ⟨c, b, List.mem_of_getElem? hc, List.mem_of_getElem? hb, hbw, hnew⟩

/-- The damaged shard is as long as it was, if it has a blob. -/
theorem length_of_sameOn (h : Written f ops w) (hsame : SameOn (Metadata w) f g) {b : BlobEntry}
    (hb : b ∈ w.blobs) : g.length = f.length := by
  obtain ⟨i, hi⟩ := List.getElem?_of_mem hb
  have hheader := h.laidOut.holds_header hi
  have hle := hheader.le_length (List.ne_nil_of_length_pos (by rw [Blob.length_toBytes]; norm_num))
  rw [Blob.length_toBytes] at hle
  refine hsame.length_eq (fun _ => Or.inr) ?_
  have hpos : 0 < Blob.sizeof := by norm_num
  omega

/-- **Every blob of a damaged V2 shard is guarded.** However the data between the header and the blob
headers of a finished shard is damaged, the shard opens and answers as before, and whatever blob it hands
out is guarded: it loads what was stored, or fails, unless the damaged bytes have the same checksum. -/
theorem damage_detected (prev : Bytes) {log : List Write} (hrun : run writerV2New ops = some (w, log))
    (hscope : InScope ops w)
    (hsame : SameOn (Metadata w) (applyWrites prev (log ++ finish w)) g) (hg : g.length < 2 ^ 63) :
    ∃ impl impl',
      (∀ gv heap, detectVersion gv heap (applyWrites prev (log ++ finish w)) = .ok (.v2 impl)) ∧
      (∀ gv heap, detectVersion gv heap g = .ok (.v2 impl')) ∧ SameAnswers impl impl' ∧
      ∀ rec blob, some rec ∈ listRecords impl → HandsOut impl rec blob →
        (slice g blob.offs blob.size).length = blob.size ∧
          ∃ c ∈ calls ops,
            BlobReadsBack env (applyWrites prev (log ++ finish w)) c.type c.file c.flags blob ∧
            Guarded env (applyWrites prev (log ++ finish w)) g blob c.stored := by
  have h := hscope.written prev hrun
  have hfiled := filed_of_sameOn hrun h.filed.end_lt hsame
  refine ⟨_, implOf g w, h.detectVersion, fun gv heap => ?_, sameAnswers h hfiled hsame,
    fun rec blob hrec hout => ?_⟩
  · rw [hfiled.laidOut.detectVersion_eq, hfiled.laidOut.implV2New hfiled.end_lt h.records_lt]
    rfl
  · obtain ⟨c, b, hc, hb, hbw, hnew⟩ := h.entry_of_handsOut hrec hout
    have hread := h.blobNew hbw (hscope.types_lt c hc)
    rw [hnew, LookupReadsBack] at hread
    split_ifs at hread
    obtain ⟨blob', heq, hback⟩ := hread
    obtain rfl := Option.some.inj heq
    have hoffs := offs_of_blobNew hnew
    have hlow := hscope.le_dataStart hrun hb
    have hend := hbw.end_le
    have hbound := h.filed.bounds.1
    have hpos : 0 < Hdr.sizeof := by norm_num
    have hlen : c.stored.length < 2 ^ 63 := by omega
    refine ⟨?_, c, hc, hback, hback.guarded (by omega) (by omega) hlen hg⟩
    have hslice :
        (slice (applyWrites prev (log ++ finish w)) blob.offs blob.size).length = blob.size := by
      rw [hback.holds.slice_eq hback.size, hback.size]
    rwa [length_slice, ← length_of_sameOn h hsame hb, ← length_slice] at hslice

/-- The archive of two records, with its first byte of data set to 0. -/
theorem damage_detected_archiveRun : ∃ w log impl impl', run writerV2New archiveRun = some (w, log) ∧
    (∀ gv heap, detectVersion gv heap
      (pwrite (applyWrites (List.replicate 8 255) (log ++ finish w)) [0] 36) = .ok (.v2 impl')) ∧
    SameAnswers impl impl' ∧
    ∀ rec blob, some rec ∈ listRecords impl → HandsOut impl rec blob → ∃ c ∈ calls archiveRun,
      Guarded smallEnv (applyWrites (List.replicate 8 255) (log ++ finish w))
        (pwrite (applyWrites (List.replicate 8 255) (log ++ finish w)) [0] 36) blob c.stored := by
  obtain ⟨w, log, hrun, hscope, hlt⟩ := inScope_archiveRun
  have hdec : ((run writerV2New archiveRun).map fun p => decide (37 ≤ p.1.ctxOffset ∧
      37 ≤ (applyWrites (List.replicate 8 255) (p.2 ++ finish p.1)).length)) = some true := by
    decide +kernel
  rw [hrun, Option.map_some, Option.some.injEq, decide_eq_true_eq] at hdec
  have hoff : 37 ≤ w.ctxOffset := hdec.1
  have hlen : 37 ≤ (applyWrites (List.replicate 8 255) (log ++ finish w)).length := hdec.2
  have hsame : SameOn (Metadata w) (applyWrites (List.replicate 8 255) (log ++ finish w))
      (pwrite (applyWrites (List.replicate 8 255) (log ++ finish w)) [0] 36) :=
    sameOn_pwrite (fun i hi => hi.imp id hoff.trans) (by omega)
  obtain ⟨impl, impl', -, hopen, hanswers, hguarded⟩ := damage_detected _ hrun hscope hsame (by
    rw [length_pwrite (by decide)]
    exact max_lt hlt (by norm_num))
  refine ⟨w, log, impl, impl', hrun, hopen, hanswers, fun rec blob hrec hout => ?_⟩
  obtain ⟨-, c, hc, -, hguard⟩ := hguarded rec blob hrec hout
  exact ⟨c, hc, hguard⟩

end V2

/-! ## V1 -/

namespace V1

variable {env : Env}

/-- A blob of a record object is that of a file that was added. -/
theorem Finished.readsBack_of_slotBlob {gv : GVariantFormat} {f : Bytes} {ops : List (Op env)}
    {es : List (WriterRecordEntry env)} (h : Finished gv f ops es) (hscope : InScope ops)
    {e' : WriterRecordEntry env} (he : e' ∈ es) {which : WriterV1Blob} {blob : EosShardBlob}
    (hblob : slotBlob (recordOf e') which = some blob) :
    ∃ c, Op.addBlob c ∈ ops ∧ BlobReadsBack env f c.type c.file c.flags blob ∧
      64 ≤ blob.offs ∧ blob.offs < 2 ^ 63 := by
  obtain ⟨r, hr, hw⟩ := h.exists_of_mem he
  have hwritten := hw.blob which
  have hslot := slotReadsBack_of_blobWritten hwritten fun c hc =>
    hscope.stored_lt c (mem_of_lastSet hr hc)
  rw [slotBlob_recordOf] at hblob
  rw [hblob] at hslot
  rcases hlast : lastSet which r.2 with _ | c
  · rw [hlast] at hslot
    cases hslot
  · rw [hlast] at hslot hwritten
    obtain ⟨blob', heq, hback⟩ := hslot
    obtain rfl := Option.some.inj heq
    exact ⟨c, mem_of_lastSet hr hlast, hback, offs_of_blobWritten hwritten hblob⟩

/-- **Every blob of a damaged V1 shard is guarded.** Whatever becomes of a finished shard behind its
header, be it cut off there, the shard opens and has the records that it had, and their blobs are
guarded. -/
theorem written_damage_detected {gv : GVariantFormat} (hgv : gv.Lawful) (prev : Bytes)
    {ops : List (Op env)} {w w' : WriterV1 env} {log : List Write} (hrun : run writerV1New ops = some w)
    (hwrite : writeToFd gv w = some (w', log)) (hscope : InScope ops) {g : Bytes}
    (hsame : SameOn (· < 8 + headerSize gv w) (applyWrites prev log) g) (hg : g.length < 2 ^ 63) :
    ∃ impl impl', (∀ heap, detectVersion gv heap (applyWrites prev log) = .ok (.v1 impl)) ∧
      (∀ heap, detectVersion gv heap g = .ok (.v1 impl')) ∧
      listRecords impl' = listRecords impl ∧
      (∀ x, findRecordByRawName impl' x = findRecordByRawName impl x) ∧
      ∀ rec ∈ listRecords impl, ∀ which blob, slotBlob rec which = some blob →
        ∃ c, Op.addBlob c ∈ ops ∧ BlobReadsBack env (applyWrites prev log) c.type c.file c.flags blob ∧
          Guarded env (applyWrites prev log) g blob c.stored := by
  have h := finished_of_run hgv prev hrun hwrite hscope.utf8
  have hlen := ((writeToFd_spec hgv hwrite).2 prev).length_header
  have hsize : Holds g 0 (le 8 (gv.serialise (headerEntryVariant w'.entries)).length) := by
    refine hsame.holds (fun i _ hi => ?_) h.size
    rw [length_le] at hi
    omega
  have hheader : Holds g 8 (gv.serialise (headerEntryVariant w'.entries)) := by
    refine hsame.holds (fun i _ hi => ?_) h.header
    rwa [hlen] at hi
  refine ⟨_, ⟨g, headerEntryVariant w'.entries⟩, h.detectVersion hgv,
    detectVersion_of_header hgv hsize hheader h.headerSize_lt h.wellFormed, rfl, fun _ => rfl,
    fun rec hrec which blob hblob => ?_⟩
  rw [Finished.listRecords_eq] at hrec
  obtain ⟨e', he, rfl⟩ := List.mem_map.mp hrec
  obtain ⟨c, hc, hback, hlow, hhigh⟩ := h.readsBack_of_slotBlob hscope he hblob
  have hstored : c.stored.length < 2 ^ 63 := (hscope.stored_lt c hc).trans (by norm_num)
  exact ⟨c, hc, hback, hback.guarded (by omega) hhigh hstored hg⟩

/-- The archive, of which only the header is left. -/
theorem written_damage_detected_cutOff : ∃ w w' log impl impl', run writerV1New archiveRun = some w ∧
    writeToFd gvariant w = some (w', log) ∧
    (∀ heap, detectVersion gvariant heap ((applyWrites [] log).take (8 + headerSize gvariant w)) =
      .ok (.v1 impl')) ∧
    listRecords impl' = listRecords impl ∧
    ∀ rec ∈ listRecords impl, ∀ which blob, slotBlob rec which = some blob →
      ∃ c, Op.addBlob c ∈ archiveRun ∧ Guarded smallEnv (applyWrites [] log)
        ((applyWrites [] log).take (8 + headerSize gvariant w)) blob c.stored := by
  obtain ⟨w, w', log, hrun, hwrite, hsize⟩ := written_archiveRun
  have hscope : InScope archiveRun :=
    ⟨fun c hc => (callsOk_archiveRun c hc).1, fun c hc => (callsOk_archiveRun c hc).2⟩
  have hlt : ((applyWrites [] log).take (8 + headerSize gvariant w)).length < 2 ^ 63 := by
    rw [List.length_take]
    omega
  obtain ⟨impl, impl', -, hopen, hlist, -, hguarded⟩ :=
    written_damage_detected gvariant_lawful [] hrun hwrite hscope (sameOn_take _) hlt
  refine ⟨w, w', log, impl, impl', hrun, hwrite, hopen, hlist, fun rec hrec which blob hblob => ?_⟩
  obtain ⟨c, hc, -, hguard⟩ := hguarded rec hrec which blob hblob
  exact ⟨c, hc, hguard⟩

end V1

end EosShard
