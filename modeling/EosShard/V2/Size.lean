import EosShard.Contents

/-!
# The size of a V2 shard

Contents and strings that occur more than once are stored once, so the size of a finished shard is a
function of the calls: of the different contents in the order in which they are first used, of the
numbers of calls of each kind, and of the different names and content types.

* `eraseDups_concat`: the different elements of a list, one more at a time.
* `StoredOnce`: what has been written after a run is every different content once, and the pool has every
  different string once.
* `archiveSize`: the size, from the calls alone.
* `length_finished`: **what a finished run writes, and how long the file is then**.
-/

namespace EosShard.V2

open EosShard.Found

variable {env : Env}

/-! ## Different elements -/

/-- One element more is only kept if it was not there before. -/
theorem eraseDups_concat {α : Type} [BEq α] [LawfulBEq α] (l : List α) (a : α) :
    (l ++ [a]).eraseDups = l.eraseDups ++ if a ∈ l then [] else [a] := by
  rw [List.eraseDups_append]
  congr 1
  by_cases ha : a ∈ l
  · simp [List.removeAll, ha]
  · simp [List.removeAll, ha, List.eraseDups_cons]

/-- The different contents of the calls, in the order in which they are first used. -/
def contentsOf (ops : List (Op env)) : List Bytes := ((calls ops).map AddBlob.stored).eraseDups

/-- The different names and content types. -/
def stringsOf (ops : List (Op env)) : List CString :=
  ((calls ops).flatMap fun c => [c.name, c.type]).eraseDups

/-- How many blobs have been attached. -/
def attachedCount (ops : List (Op env)) : ℕ :=
  ops.countP fun op => match op with
    | .addBlobToRecord _ _ => true
    | _ => false

/-- Where the data ends if the contents are stored one behind the other. -/
def dataEnd (contents : List Bytes) : ℕ :=
  contents.foldl (fun offset bytes => align (offset + bytes.length)) Hdr.sizeof

/-- The size of the shard of a run. -/
def archiveSize (ops : List (Op env)) : ℕ :=
  let tables := dataEnd (contentsOf ops) + (calls ops).length * Blob.sizeof +
    attachedCount ops * RecordBlobTableEntry.sizeof
  align (align tables + (recordNames ops).length * Record.sizeof) +
    ((stringsOf ops).map CString.size).sum

/-! ## What is stored -/

/-- The strings of the pool are the different ones of the calls. -/
theorem strings_constantPoolAdd {cpool : ConstantPool} (h : cpool.Ok) {strings : List CString}
    (hs : cpool.strings = strings.eraseDups) (S : CString) :
    (constantPoolAdd cpool S).1.strings = (strings ++ [S]).eraseDups := by
  have hmem : S ∈ cpool.strings ↔ S ∈ strings := by rw [hs, List.mem_eraseDups]
  rw [eraseDups_concat, ← hs]
  unfold constantPoolAdd
  rw [h.lookup]
  by_cases hS : S ∈ strings
  · simp [hS, hmem]
  · simp [hS, hmem]

/-- What a run has stored. -/
structure StoredOnce (ops : List (Op env)) (w : WriterV2) (log : List Write) : Prop where
  data : log.flatMap Write.data = (contentsOf ops).flatten
  offset : w.ctxOffset = dataEnd (contentsOf ops)

/-- The data of a call is new exactly if no call before has the same. -/
theorem Placed.isNew_iff {prev : Bytes} {ops : List (Op env)} {w : WriterV2} {log : List Write}
    (h : Placed prev ops w log) (hw : History ops w log) (hoff : w.ctxOffset < 2 ^ 32) {c : AddBlob env}
    (hcol : CollisionFree (calls ops ++ [c])) :
    IsNew w c ↔ c.stored ∉ (calls ops).map AddBlob.stored := by
  rcases hf : (placements ops w).find? (fun p => p.1.csum = c.csum) with _ | p
  · refine iff_of_true (h.isNew hf) fun hmem => ?_
    -- a call with the same data has an entry with the same checksum
    obtain ⟨c', hc', hsame⟩ := List.mem_map.mp hmem
    obtain ⟨i, hi⟩ := List.getElem?_of_mem hc'
    obtain ⟨b, hb, -⟩ := exists_getElem?_of_forall₂ hw.carries hi
    have hin : (c', b) ∈ placements ops w :=
      List.mem_of_getElem? (List.getElem?_zip_eq_some.mpr ⟨hi, hb⟩)
    have hne := List.find?_eq_none.mp hf (c', b) hin
    rw [decide_eq_true_eq] at hne
    exact hne (congrArg env.sha256 hsame)
  · have hp := List.mem_of_find?_eq_some hf
    have hlow : 36 ≤ p.2.sblob.dataStart := (h.bounds p hp).1
    have hhigh := (h.bounds p hp).2
    refine iff_of_false (fun hnew => ?_) fun hno => ?_
    · rw [IsNew, h.lookupDataStart_eq, hf, Option.map_some, Option.getD_some,
        Nat.mod_eq_of_lt (by omega)] at hnew
      omega
    · refine hno (List.mem_map.mpr ⟨p.1, mem_calls_of_mem_placements hp, ?_⟩)
      exact stored_eq_of_find? hcol hf

/-- **Every different content is stored once**, as long as the data stays below 4 GiB. -/
theorem storedOnce_of_run {ops : List (Op env)} {w : WriterV2} {log : List Write}
    (hrun : run writerV2New ops = some (w, log)) (hoff : w.ctxOffset < 2 ^ 32)
    (hpool : (poolBytes w.cpool.strings).length ≤ 2 ^ 32) (hcol : CollisionFree (calls ops)) :
    StoredOnce ops w log := by
  refine run_rule (P := fun ops w log => w.ctxOffset < 2 ^ 32 →
    (poolBytes w.cpool.strings).length ≤ 2 ^ 32 → CollisionFree (calls ops) → StoredOnce ops w log)
    ?_ ?_ hrun hoff hpool hcol
  · exact fun _ _ _ => ⟨rfl, rfl⟩
  · intro ops w log op w' ws hrun ih h hoff hpool hcol
    have hw := history_of_run hrun
    obtain ⟨hle, hpre⟩ := step_mono hw.pool h
    have hoff₀ : w.ctxOffset < 2 ^ 32 := hle.trans_lt hoff
    have hpool₀ := (length_poolBytes_le_of_isPrefix hpre).trans hpool
    have hcol₀ : CollisionFree (calls ops) := by
      rw [calls_append] at hcol
      exact hcol.of_append
    obtain ⟨hdata, hend⟩ := ih hoff₀ hpool₀ hcol₀
    rcases step_cases h with ⟨c, rfl, hc, rfl, rfl⟩ | ⟨hcalls, rfl, hsame, -⟩
    · have hplaced : Placed [] ops w log := by
        rcases placed_or_not_sameOffsets [] hrun (by omega) hcol₀ with ⟨-, h⟩ | ⟨h, -⟩
        · exact h
        · exact absurd (stepsFit_of_lt hrun hoff₀ hpool₀) h
      have hcalls : calls (ops ++ [.addBlob c]) = calls ops ++ [c] := by
        rw [calls_append, calls_addBlob hc]
      rw [hcalls] at hcol
      have hnew := hplaced.isNew_iff hw hoff₀ hcol
      have hcontents : contentsOf (ops ++ [.addBlob c]) =
          contentsOf ops ++ if IsNew w c then [c.stored] else [] := by
        rw [contentsOf, hcalls, List.map_append, List.map_singleton, eraseDups_concat, ← contentsOf]
        congr 1
        by_cases hmem : c.stored ∈ (calls ops).map AddBlob.stored
        · rw [if_pos hmem, if_neg fun h => hnew.mp h hmem]
        · rw [if_neg hmem, if_pos (hnew.mpr hmem)]
      rw [addBlob_eq hc]
      by_cases hn : IsNew w c
      · refine ⟨?_, ?_⟩
        · simp only [hn, if_true, List.flatMap_append, hdata, hcontents, List.flatten_append,
            List.flatten_singleton, flatMap_data_seqWrites]
          rw [c.reads_flatten]
          rfl
        · simp only [hn, if_true, hcontents, dataEnd, List.foldl_append, List.foldl_cons,
            List.foldl_nil]
          rw [hend, dataEnd]
      · refine ⟨?_, ?_⟩
        · simp only [hn, if_false, List.append_nil, hdata, hcontents]
        · simp only [hn, if_false, List.append_nil, hend, hcontents]
    · have hcalls' : contentsOf (ops ++ [op]) = contentsOf ops := by
        rw [contentsOf, calls_append, hcalls, List.append_nil, ← contentsOf]
      exact ⟨by rw [List.append_nil, hdata, hcalls'], by rw [hsame, hend, hcalls']⟩

/-- The pool has every different name and content type once. -/
theorem strings_of_run {ops : List (Op env)} {w : WriterV2} {log : List Write}
    (hrun : run writerV2New ops = some (w, log)) : w.cpool.strings = stringsOf ops := by
  refine run_rule (P := fun ops w _ => w.cpool.strings = stringsOf ops) rfl ?_ hrun
  intro ops w log op w' ws hrun ih h
  have hok := (history_of_run hrun).pool
  rcases step_cases h with ⟨c, rfl, hc, rfl, -⟩ | ⟨hcalls, -, -, -, -, hpool⟩
  · have hname := strings_constantPoolAdd hok ih c.name
    have htype := strings_constantPoolAdd (constantPoolAdd_spec hok c.name).1 hname c.type
    rw [addBlob_eq hc, stringsOf, calls_append, calls_addBlob hc, List.flatMap_append]
    rw [List.append_assoc] at htype
    exact htype
  · rw [hpool, ih, stringsOf, stringsOf, calls_append, hcalls, List.append_nil]

/-- Attaching makes one table longer. -/
theorem sum_length_modify {es : List RecordEntry} {r : ℕ} (hr : r < es.length) (i : ℕ) :
    ((es.modify r fun e => { e with blobs := e.blobs ++ [i] }).map fun e => e.blobs.length).sum =
      (es.map fun e => e.blobs.length).sum + 1 := by
  induction es generalizing r with
  | nil => cases hr
  | cons e es ih =>
      cases r with
      | zero =>
          rw [List.modify_zero_cons, List.map_cons, List.map_cons, List.sum_cons, List.sum_cons,
            List.length_append, List.length_singleton]
          omega
      | succ r =>
          rw [List.modify_succ_cons, List.map_cons, List.map_cons, List.sum_cons, List.sum_cons,
            ih (Nat.lt_of_succ_lt_succ hr)]
          omega

/-- The records have as many blobs as have been attached. -/
theorem sum_attached_of_run {ops : List (Op env)} {w : WriterV2} {log : List Write}
    (hrun : run writerV2New ops = some (w, log)) :
    (w.records.map fun e => e.blobs.length).sum = attachedCount ops := by
  refine run_rule (P := fun ops w _ => (w.records.map fun e => e.blobs.length).sum =
    attachedCount ops) rfl ?_ hrun
  intro ops w log op w' ws hrun ih h
  have hcount : attachedCount (ops ++ [op]) = attachedCount ops + attachedCount [op] :=
    List.countP_append
  rw [hcount]
  cases op with
  | addBlob c =>
      have hrecords : (addBlob w c).1.records = w.records := by
        by_cases hc : c.Accepted
        · rw [addBlob_eq hc]
        · rw [addBlob_rejected hc]
      simp only [step, Option.some.injEq, Prod.mk.injEq] at h
      rw [← h.1, hrecords, ih]
      rfl
  | addRecord hexName =>
      simp only [step, addRecord, Option.some.injEq, Prod.mk.injEq] at h
      rw [← h.1, List.map_append, List.sum_append, ih]
      rfl
  | addBlobToRecord r i =>
      simp only [step, addBlobToRecord] at h
      split_ifs at h with hin
      · simp only [Option.map_some, Option.some.injEq, Prod.mk.injEq] at h
        rw [← h.1, sum_length_modify hin.1, ih]
        rfl
      · cases h

/-! ## The size -/

/-- The blob tables have one entry for every attached blob. -/
theorem length_tablePieces (blobs : List BlobEntry) (es : List RecordEntry) :
    (es.flatMap (tablePieces blobs)).flatten.length =
      (es.map fun e => e.blobs.length).sum * RecordBlobTableEntry.sizeof := by
  induction es with
  | nil => rfl
  | cons e es ih =>
      have hone : (tablePieces blobs e).flatten.length =
          (e.blobs.insertionSort (blobNameLe blobs)).length * RecordBlobTableEntry.sizeof :=
        length_flatten_map_of_forall fun _ _ => RecordBlobTableEntry.length_toBytes _
      rw [List.flatMap_cons, List.flatten_append, List.length_append, hone, ih,
        List.length_insertionSort, List.map_cons, List.sum_cons, Nat.add_mul]

/-- **The end of the shard** is the size that the calls say. -/
theorem shardEnd_eq {ops : List (Op env)} {w : WriterV2} {log : List Write}
    (hrun : run writerV2New ops = some (w, log)) (hend : shardEnd w < 2 ^ 32)
    (hcol : CollisionFree (calls ops)) : shardEnd w = archiveSize ops := by
  obtain ⟨h₁, h₂, -, h₃, h₄⟩ := regions_le w
  have hpool : (poolBytes w.cpool.strings).length ≤ 2 ^ 32 := by
    unfold shardEnd at hend
    omega
  have hstored := storedOnce_of_run hrun (by omega) hpool hcol
  have hblobs := (history_of_run hrun).length_blobs
  have hrecords : w.records.length = (recordNames ops).length := by
    rw [(records_of_run hrun).records, List.length_mapIdx]
  have hattached : ((w.records.insertionSort rawNameLe).map fun e => e.blobs.length).sum =
      attachedCount ops := by
    rw [← sum_attached_of_run hrun]
    exact ((List.perm_insertionSort rawNameLe w.records).map _).sum_eq
  have htables : tablesStart w = w.ctxOffset + w.blobs.length * Blob.sizeof := by
    rw [tablesStart, writeBlobHeaders_eq]
  have hstrings : (poolBytes w.cpool.strings).length = ((stringsOf ops).map CString.size).sum := by
    rw [strings_of_run hrun, poolBytes, List.length_flatten, List.map_map]
    exact congrArg List.sum (List.map_congr_left fun S _ => CString.length_toBytes S)
  rw [shardEnd, stringTableStart, writeRecords_eq, recordsStart, writeBlobTables_eq,
    length_tablePieces, hattached, length_finishedRecords, hrecords, htables, hblobs, hstored.offset,
    hstrings]
  rfl

/-- All writes of a run are in front of its offset. -/
theorem ends_of_run {ops : List (Op env)} {w : WriterV2} {log : List Write}
    (hrun : run writerV2New ops = some (w, log)) :
    ∀ x ∈ log, x.off + x.data.length ≤ w.ctxOffset := by
  refine run_rule (P := fun _ w log => ∀ x ∈ log, x.off + x.data.length ≤ w.ctxOffset)
    (List.forall_mem_nil _) ?_ hrun
  intro ops w log op w' ws hrun ih h x hx
  have hle := (step_mono (history_of_run hrun).pool h).1
  rcases List.mem_append.mp hx with hx | hx
  · exact (ih x hx).trans hle
  · rcases step_cases h with ⟨c, rfl, hc, rfl, rfl⟩ | ⟨-, rfl, -⟩
    · rw [addBlob_eq hc] at hx ⊢
      by_cases hn : IsNew w c
      · simp only [hn, if_true] at hx ⊢
        have hbound := end_le_of_mem_seqWrites hx
        rw [c.reads_flatten] at hbound
        exact hbound.trans (le_align _)
      · simp only [hn, if_false, List.not_mem_nil] at hx
    · cases hx

/-- **What is written, and how long the file is.** A run with calls that passed the length checks writes
every different content once, in the order of the first uses; and when it is finished, on top of any
previous contents, the file has as many bytes as the calls say, or as it had before. -/
theorem length_finished (prev : Bytes) {ops : List (Op env)} {w : WriterV2} {log : List Write}
    (hrun : run writerV2New ops = some (w, log)) (hend : shardEnd w < 2 ^ 32)
    (hcol : CollisionFree (calls ops)) (hne : calls ops ≠ []) :
    log.flatMap Write.data = (contentsOf ops).flatten ∧
      (applyWrites prev (log ++ finish w)).length = max prev.length (archiveSize ops) := by
  obtain ⟨h₁, h₂, -, h₃, h₄⟩ := regions_le w
  have hpool : (poolBytes w.cpool.strings).length ≤ 2 ^ 32 := by
    unfold shardEnd at hend
    omega
  have hw := history_of_run hrun
  refine ⟨(storedOnce_of_run hrun (by omega) hpool hcol).data, ?_⟩
  rw [← shardEnd_eq hrun hend hcol]
  apply le_antisymm
  · -- no write goes behind the end
    apply length_applyWrites_le (le_max_left _ _)
    intro x hx
    apply le_max_of_le_right
    rcases List.mem_append.mp hx with hx | hx
    · have hle := ends_of_run hrun x hx
      omega
    · obtain ⟨ws, hfinish, hin⟩ := inOrder_finish w
      rw [hfinish] at hx
      rcases List.mem_append.mp hx with hx | hx
      · exact (hin.bounds _ (List.mem_map_of_mem hx)).2
      · rw [List.mem_singleton.mp hx, Hdr.length_toBytes rfl, Nat.zero_add]
        have hhdr := hw.header_le
        omega
  · -- the strings are the last ones, and there is one
    apply max_le (le_length_applyWrites _ _)
    obtain ⟨c, hc⟩ := List.exists_mem_of_ne_nil _ hne
    have hmem := (hw.strings c hc).1
    have hlaid := (laidOut_finish (applyWrites prev log) hw.header_le).1
    rw [← applyWrites_append] at hlaid
    apply hlaid.strings.le_length
    intro hnil
    have hpos := poolOffset_lt hmem
    rw [hnil] at hpos
    cases hpos

/-- The archive of two records: three contents, one of them empty, and four strings. -/
theorem length_finished_archiveRun : ∃ w log, run writerV2New archiveRun = some (w, log) ∧
    log.flatMap Write.data = (contentsOf archiveRun).flatten ∧
    (applyWrites (List.replicate 8 255) (log ++ finish w)).length =
      max (List.replicate 8 255 : Bytes).length (archiveSize archiveRun) := by
  obtain ⟨w, log, hrun, hscope, -⟩ := inScope_archiveRun
  exact ⟨w, log, hrun, length_finished _ hrun hscope.end_lt hscope.collisionFree (by decide)⟩

example : archiveSize archiveRun = 492 := by decide +kernel

end EosShard.V2
