import EosShard.V1.RoundTrip
import EosShard.V2.RoundTrip

/-!
# The header write is the commit point

Both writers write the header last. Until then the start of the file is a hole, so a run that is cut
off in front of any of its writes leaves a file that no reader takes for a shard.

* `HeaderCommits gv log reads`: on a file that was empty, every proper prefix of the writes `log` is
  turned away by the version probe, and after the last write the probe hands the file to its reader.
* `implV2New` takes the size of the record table for an `int`: the shard of `recordsRun` is complete, and
  the open of it ends the process.
* The data is behind the place of the header in both formats. The V1 header takes two writes; after
  the first one the file has a length and no magic yet, and a length below `2 ^ 48` cannot be taken
  for a part of one.
-/

namespace EosShard

open EosShard.Found

/-- A run on an empty file, as its writes make it: cut off anywhere it leaves a file of no version, and
complete one of the version of the reader. -/
structure HeaderCommits (gv : V1.GVariantFormat) (log : List Write)
    (reads : Heap → Bytes → Result ShardFileImpl) : Prop where
  before : ∀ heap k, k < log.length →
    detectVersion gv heap (applyWrites [] (log.take k)) = .error couldNotDetect
  after : ∀ heap, detectVersion gv heap (applyWrites [] log) = reads heap (applyWrites [] log)

/-- As long as all writes are behind the first 16 bytes the file is of no version. -/
theorem detectVersion_of_writesFrom {gv : V1.GVariantFormat} {heap : Heap} {ws : List Write}
    (h : WritesFrom 16 ws) : detectVersion gv heap (applyWrites [] ws) = .error couldNotDetect :=
  detectVersion_of_zeros fun i b _ hi hb => (zerosBelow_nil 16).applyWrites h i b hi hb

/-- The first writes start behind the same position. -/
theorem writesFrom_take {lo : ℕ} {ws : List Write} (h : WritesFrom lo ws) (k : ℕ) :
    WritesFrom lo (ws.take k) := fun x hx => h x (List.mem_of_mem_take hx)

/-! ## V2 -/

/-- The writes of a V2 run commit with the header. -/
theorem headerCommits_v2 (gv : V1.GVariantFormat) {env : Env} {ops : List (V2.Op env)}
    {w : V2.WriterV2} {log : List Write} (hrun : V2.run V2.writerV2New ops = some (w, log)) :
    HeaderCommits gv (log ++ V2.finish w) fun _ f => (V2.implV2New f).map .v2 := by
  have hw := V2.history_of_run hrun
  obtain ⟨ws, hfinish, hws⟩ := V2.finish_eq_concat w
  constructor
  · intro heap k hk
    have hfrom : WritesFrom 16 (log ++ ws) :=
      (hw.writesFrom.append (hws.mono hw.header_le)).mono (by norm_num)
    rw [hfinish, ← List.append_assoc] at hk ⊢
    rw [List.length_append, List.length_singleton] at hk
    rw [List.take_append_of_le_length (by omega)]
    exact detectVersion_of_writesFrom (writesFrom_take hfrom k)
  · intro heap
    rw [applyWrites_append]
    exact (V2.laidOut_finish _ hw.header_le).1.detectVersion_eq gv heap

/-! ## V1 -/

/-- The writes of a V1 run commit with the header. -/
theorem headerCommits_v1 {gv : V1.GVariantFormat} (hgv : gv.Lawful) {env : Env}
    {w w' : V1.WriterV1 env} {log : List Write} (hwrite : V1.writeToFd gv w = some (w', log))
    (hsize : V1.headerSize gv w < 2 ^ 48) :
    HeaderCommits gv log fun heap f => (V1.implV1New gv heap f).map .v1 := by
  obtain ⟨⟨ws, hws, hlog⟩, hwritten⟩ := V1.writeToFd_spec hgv hwrite
  have hfrom : WritesFrom 16 ws := hws.mono (by norm_num)
  constructor
  · intro heap k hk
    rw [hlog] at hk ⊢
    rw [List.length_append, List.length_cons, List.length_cons, List.length_nil] at hk
    by_cases hk' : k ≤ ws.length
    · rw [List.take_append_of_le_length hk']
      exact detectVersion_of_writesFrom (writesFrom_take hfrom k)
    · -- only the header itself is missing
      have hk₁ : k = ws.length + 1 := by omega
      rw [hk₁, List.take_length_add_append, List.take_succ_cons, List.take_zero, applyWrites_append]
      refine detectVersion_of_zeros fun i b h₆ h₁₆ hb => ?_
      have hle : le 8 (V1.headerSize gv w) = le 6 (V1.headerSize gv w) ++ [0, 0] :=
        le_add_of_lt 2 (hsize.trans_eq (by norm_num))
      have hne : le 8 (V1.headerSize gv w) ≠ [] := by
        rw [hle]
        simp
      simp only [applyWrites_cons, applyWrites_nil] at hb
      rw [getElem?_pwrite hne, if_neg (Nat.not_lt_zero i), Nat.zero_add, length_le, Nat.sub_zero] at hb
      split_ifs at hb with h₈
      · rw [hle, List.getElem?_append_right (by rw [length_le]; omega), length_le] at hb
        interval_cases i
        · exact (Option.some.inj hb).symm
        · exact (Option.some.inj hb).symm
      · exact (zerosBelow_nil 16).applyWrites hfrom i b h₁₆ hb
  · intro heap
    obtain ⟨hs, hh, -⟩ := hwritten []
    have hmagic := hgv.holds_magic (V1.headerEntryVariant w'.entries)
    have hin := hh.slice (hmagic.le_length (CString.toBytes_ne_nil _))
    rw [hmagic.slice_eq rfl] at hin
    exact V1.detectVersion_of_v1 hs hin

/-! ## Both formats -/

/-- **The header write is the commit point** of every run of both writers on an empty file, and the
complete file opens, with an exception:

* V2: for any run and `finish`; in the range of `off_t`, the open succeeds exactly if the size of the
  record table is not negative as an `int`, as below `2 ^ 31` bytes;
* V1: for any run and `writeToFd` with a header below `2 ^ 48` bytes; the open reads the header if it is
  well-formed, which takes content types in UTF-8. -/
theorem headerCommits {gv : V1.GVariantFormat} (hgv : gv.Lawful) (env : Env) :
    (∀ (ops : List (V2.Op env)) w log, V2.run V2.writerV2New ops = some (w, log) →
      HeaderCommits gv (log ++ V2.finish w) (fun _ f => (V2.implV2New f).map .v2) ∧
        (V2.shardEnd w < 2 ^ 63 →
          ((∃ impl, V2.implV2New (applyWrites [] (log ++ V2.finish w)) = .ok impl) ↔
            0 ≤ asInt32 (w.records.length * V2.Record.sizeof)))) ∧
      ∀ (ops : List (V1.Op env)) w w' log, V1.run V1.writerV1New ops = some w →
        V1.writeToFd gv w = some (w', log) → V1.headerSize gv w < 2 ^ 48 →
        HeaderCommits gv log (fun heap f => (V1.implV1New gv heap f).map .v1) ∧
          ((∀ c, V1.Op.addBlob c ∈ ops → V1.utf8Validate c.type.chars = true) →
            ∀ heap, ∃ impl, V1.implV1New gv heap (applyWrites [] log) = .ok impl) := by
  constructor
  · intro ops w log hrun
    refine ⟨headerCommits_v2 gv hrun, fun hend => ?_⟩
    rw [applyWrites_append]
    exact (V2.laidOut_finish _ (V2.history_of_run hrun).header_le).1.implV2New_isOk_iff hend
  · intro ops w w' log hrun hwrite hsize
    refine ⟨headerCommits_v1 hgv hwrite hsize, fun hutf8 heap => ?_⟩
    exact ⟨_, (V1.finished_of_run hgv [] hrun hwrite hutf8).implV1New hgv heap⟩

/-- The archives of the round trips, written to empty files. -/
theorem headerCommits_archiveRun :
    (∃ w log, V2.run V2.writerV2New V2.archiveRun = some (w, log) ∧
      HeaderCommits V1.gvariant (log ++ V2.finish w) (fun _ f => (V2.implV2New f).map .v2) ∧
      ∃ impl, V2.implV2New (applyWrites [] (log ++ V2.finish w)) = .ok impl) ∧
    ∃ w w' log, V1.run V1.writerV1New V1.archiveRun = some w ∧
      V1.writeToFd V1.gvariant w = some (w', log) ∧
      HeaderCommits V1.gvariant log (fun heap f => (V1.implV1New V1.gvariant heap f).map .v1) ∧
      ∀ heap, ∃ impl, V1.implV1New V1.gvariant heap (applyWrites [] log) = .ok impl := by
  obtain ⟨h₂, h₁⟩ := headerCommits V1.gvariant_lawful smallEnv
  constructor
  · obtain ⟨w, log, hrun, hw⟩ := V2.written_archiveRun []
    obtain ⟨hc, hopen⟩ := h₂ _ w log hrun
    refine ⟨w, log, hrun, hc, (hopen (hw.end_lt.trans (by norm_num))).mpr ?_⟩
    rw [asInt32_of_lt hw.records_lt]
    exact Int.natCast_nonneg _
  · obtain ⟨w, w', log, hrun, hwrite, hsize⟩ := V1.written_archiveRun
    obtain ⟨hc, hopen⟩ := h₁ _ w w' log hrun hwrite hsize
    exact ⟨w, w', log, hrun, hwrite, hc, hopen fun c hc => (V1.callsOk_archiveRun c hc).1⟩

/-- What a run of `add_record` calls with one name leaves behind. -/
theorem run_replicate_addRecord (env : Env) (hexName : CString) :
    ∃ e : V2.RecordEntry, e.blobs = [] ∧ ∀ n (w : V2.WriterV2),
      V2.run w (List.replicate n (.addRecord hexName : V2.Op env)) =
        some ({ w with records := w.records ++ List.replicate n e }, []) := by
  refine ⟨⟨(hexNameToRawName zeroRawName hexName).2, [], 0⟩, rfl, fun n => ?_⟩
  induction n with
  | zero =>
      intro w
      rw [List.replicate_zero, List.replicate_zero, List.append_nil]
      rfl
  | succ n ih =>
      intro w
      rw [List.replicate_succ, V2.run_cons_eq_some]
      refine ⟨_, _, _, rfl, (ih _).trans ?_, rfl⟩
      simp only [V2.addRecord, List.replicate_succ, List.append_assoc, List.singleton_append]

/-- The end of a shard without blobs. -/
theorem shardEnd_of_noBlobs {w : V2.WriterV2} (hblobs : w.blobs = []) (hpool : w.cpool.strings = [])
    (hrecords : ∀ e ∈ w.records, e.blobs = []) :
    V2.shardEnd w = V2.align (V2.align w.ctxOffset + w.records.length * V2.Record.sizeof) := by
  have hpieces : (w.records.insertionSort V2.rawNameLe).flatMap (V2.tablePieces (V2.finishedBlobs w)) = [] := by
    refine List.flatMap_eq_nil_iff.mpr fun e he => ?_
    rw [V2.tablePieces, hrecords e ((List.perm_insertionSort _ _).mem_iff.mp he)]
    rfl
  have hend := congrArg Prod.snd (V2.writeBlobTables_eq (V2.finishedBlobs w) (V2.tablesStart w)
    (w.records.insertionSort V2.rawNameLe))
  simp only [hpieces, List.flatten_nil, List.length_nil, Nat.add_zero] at hend
  have hstart : V2.recordsStart w = V2.align w.ctxOffset := by
    rw [V2.recordsStart, hend, V2.tablesStart, hblobs]
    rfl
  rw [V2.shardEnd, V2.stringTableStart, V2.writeRecords_eq, V2.length_finishedRecords, hstart, hpool]
  rfl

/-- A run of 59652324 `add_record` calls. -/
def recordsRun : List (V2.Op smallEnv) := List.replicate 59652324 (.addRecord digitsName)

/-- The record table of `recordsRun` has 2 ^ 31 + 16 bytes: all of its writes make no file that opens. -/
theorem recordsRun_not_accepted : ∃ w log, V2.run V2.writerV2New recordsRun = some (w, log) ∧
    ∀ gv heap, detectVersion gv heap (applyWrites [] (log ++ V2.finish w)) = .error .abort := by
  obtain ⟨e, he, hrun⟩ := run_replicate_addRecord smallEnv digitsName
  have hrun := hrun 59652324 V2.writerV2New
  refine ⟨_, _, hrun, fun gv heap => ?_⟩
  have hlaid := (V2.laidOut_finish [] (V2.history_of_run hrun).header_le).1
  rw [List.nil_append, hlaid.detectVersion_eq, hlaid.implV2New_eq_abort]
  · rfl
  · rw [shardEnd_of_noBlobs rfl rfl]
    · rw [List.length_append, List.length_replicate]
      show V2.align (V2.align V2.Hdr.sizeof + (0 + 59652324) * V2.Record.sizeof) < 2 ^ 63
      decide
    · intro e' he'
      rw [List.eq_of_mem_replicate he']
      exact he
  · rw [List.length_append, List.length_replicate]
    decide

end EosShard
