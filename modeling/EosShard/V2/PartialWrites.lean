import EosShard.Found.Transfers
import EosShard.V2.Filed

/-!
# Reads and writes that are cut short

`add_blob` and `finish` go on behind every `pwrite` as if it had transferred all it was asked for. A
run with calls that are cut short is the same run with `Transfer`s in the place of its writes
(`copyLoop_eq`).

* `run_uncut`: how the data of a blob is cut into reads makes no difference.
* `apart_run`: no two writes of a run and its `finish` meet.
* `complete_iff`: hence a shard is complete if and only if every byte that was left out was in the file
  already.
-/

namespace EosShard.V2

open EosShard.Found

variable {env : Env}

/-! ## The loops of `add_blob` -/

/-- What the checksum has been updated with behind the reads of the checksum loop.
Source: `eos-shard-writer-v2.c`, first loop of `eos_shard_writer_v2_add_blob`. -/
def checksumLoop (reads : List Bytes) : Bytes := reads.foldl (· ++ ·) []

/-- **The checksum** is that of the stored data, however it is read. -/
theorem sha256_checksumLoop {c : AddBlob env} {reads : List Bytes} (h : reads.flatten = c.stored) :
    env.sha256 (checksumLoop reads) = c.csum := by
  have hflat : checksumLoop reads = reads.flatten := by
    refine (List.foldl_append_eq_append (f := id)).trans ?_
    rw [List.nil_append, List.map_id]
  rw [hflat, h]
  rfl

/-- One iteration of the copy loop, on the file and the running offset: a read that yields `buf`, and a
`pwrite` that transfers `count` bytes of it.
Source: `eos-shard-writer-v2.c`, second loop of `eos_shard_writer_v2_add_blob`. -/
def copyStep (s : Bytes × ℕ) (buf : Bytes) (count : ℕ) : Bytes × ℕ :=
  (pwrite s.1 (buf.take count) s.2, s.2 + buf.length)

/-- The copy loop. -/
def copyLoop (f : Bytes) (offset : ℕ) (calls : List (Bytes × ℕ)) : Bytes × ℕ :=
  calls.foldl (fun s call => copyStep s call.1 call.2) (f, offset)

/-- **The copy loop**: the offset advances by what has been read. -/
theorem copyLoop_eq (f : Bytes) {offset : ℕ} {reads : List Bytes} {ts : List Transfer}
    (h : ts.map Transfer.write = seqWrites offset reads) :
    copyLoop f offset (ts.map fun t => (t.write.data, t.count)) =
      (applyWrites f (ts.map Transfer.done), offset + reads.flatten.length) := by
  induction reads generalizing f offset ts with
  | nil =>
      obtain rfl := List.map_eq_nil_iff.mp h
      rfl
  | cons buf reads ih =>
      cases ts with
      | nil => cases h
      | cons t ts =>
          obtain ⟨ht, hts⟩ := List.cons.inj h
          have hdone : t.done = ⟨offset, buf.take t.count⟩ := by rw [Transfer.done, ht]
          have hrest := ih (pwrite f (buf.take t.count) offset) hts
          rw [List.map_cons, List.map_cons, applyWrites_cons, hdone, List.flatten_cons,
            List.length_append, ← Nat.add_assoc, ← hrest, ht]
          rfl

/-! ## Reads -/

/-- The call with reads that return all they are asked for. -/
def AddBlob.uncut (c : AddBlob env) : AddBlob env :=
  { c with
    reads := cutInto (4096 * 4) c.stored
    reads_flatten := flatten_cutInto (by norm_num) _
    reads_size := fun _ hp => length_of_mem_cutInto (by norm_num) hp }

/-- A step with full reads. -/
def Op.uncut : Op env → Op env
  | .addBlob c => .addBlob c.uncut
  | .addRecord hexName => .addRecord hexName
  | .addBlobToRecord recordId blobId => .addBlobToRecord recordId blobId

/-- One call. -/
theorem step_uncut {w w' : WriterV2} {op : Op env} {ws : List Write}
    (h : step w op = some (w', ws)) :
    ∃ ws', step w op.uncut = some (w', ws') ∧ ∀ f, applyWrites f ws' = applyWrites f ws := by
  cases op with
  | addRecord hexName => exact ⟨ws, h, fun _ => rfl⟩
  | addBlobToRecord recordId blobId => exact ⟨ws, h, fun _ => rfl⟩
  | addBlob c =>
      cases h
      refine ⟨(addBlob w c.uncut).2.1, ?_, fun f => ?_⟩
      · by_cases hc : c.Accepted
        · have hc' : c.uncut.Accepted := hc
          rw [Op.uncut, step, addBlob_eq hc, addBlob_eq hc']
          rfl
        · have hc' : ¬ c.uncut.Accepted := hc
          rw [Op.uncut, step, addBlob_rejected hc, addBlob_rejected hc']
      · by_cases hc : c.Accepted
        · have hc' : c.uncut.Accepted := hc
          have hflat : c.uncut.reads.flatten = c.reads.flatten :=
            c.uncut.reads_flatten.trans c.reads_flatten.symm
          have hnew : IsNew w c.uncut ↔ IsNew w c := Iff.rfl
          rw [addBlob_eq hc, addBlob_eq hc']
          simp only [hnew]
          split_ifs
          · rw [applyWrites_seqWrites, applyWrites_seqWrites, hflat]
          · rfl
        · have hc' : ¬ c.uncut.Accepted := hc
          rw [addBlob_rejected hc, addBlob_rejected hc']

/-- **Reads may be cut**: with full reads a run has the same writer and the same file. -/
theorem run_uncut {ops : List (Op env)} {w : WriterV2} {log : List Write}
    (hrun : run writerV2New ops = some (w, log)) :
    ∃ log', run writerV2New (ops.map Op.uncut) = some (w, log') ∧
      ∀ f, applyWrites f log' = applyWrites f log := by
  refine run_rule (P := fun ops w log => ∃ log', run writerV2New (ops.map Op.uncut) = some (w, log') ∧
    ∀ f, applyWrites f log' = applyWrites f log) ⟨[], rfl, fun _ => rfl⟩ ?_ hrun
  rintro ops w log op w' ws - ⟨log', hrun', hsame⟩ hstep
  obtain ⟨ws', hstep', hsame'⟩ := step_uncut hstep
  refine ⟨log' ++ ws', ?_, fun f => ?_⟩
  · rw [List.map_append]
    exact run_concat hrun' hstep'
  · rw [applyWrites_append, applyWrites_append, hsame, hsame']

/-! ## The writes of a run do not meet -/

/-- The data goes one behind the other between the header and the running offset. -/
theorem inOrder_run {ops : List (Op env)} {w : WriterV2} {log : List Write}
    (hrun : run writerV2New ops = some (w, log)) :
    InOrder Hdr.sizeof w.ctxOffset (log.map Write.extent) := by
  refine run_rule (P := fun _ w log => InOrder Hdr.sizeof w.ctxOffset (log.map Write.extent))
    (.nil (le_refl _)) ?_ hrun
  intro ops w log op w' ws _ ih hstep
  rw [List.map_append]
  rcases step_cases hstep with ⟨c, -, hc, rfl, rfl⟩ | ⟨-, rfl, hoff, -⟩
  · rw [addBlob_eq hc]
    simp only
    split_ifs
    · have hseq := inOrder_seqWrites w.ctxOffset c.reads
      have hflat : c.reads.flatten = c.stored := c.reads_flatten
      rw [hflat] at hseq
      exact ih.append (hseq.mono (le_refl _) (le_align _))
    · exact ih.append (.nil (le_refl _))
  · rw [hoff]
    exact ih.append (.nil (le_refl _))

/-- **No two writes of a run and its `finish` meet**. -/
theorem apart_run {ops : List (Op env)} {w : WriterV2} {log : List Write}
    (hrun : run writerV2New ops = some (w, log)) : ApartWrites (log ++ finish w) := by
  obtain ⟨ws, hfinish, hbehind⟩ := inOrder_finish w
  have hheader : InOrder 0 Hdr.sizeof
      (([⟨0, (finishedHdr w).toBytes⟩] : List Write).map Write.extent) := by
    refine .singleton (le_refl _) ?_
    exact (Nat.zero_add _).trans_le (Hdr.length_toBytes rfl).le
  have hall := (hheader.append ((inOrder_run hrun).append hbehind)).pairwise_apart
  rw [← List.map_append, ← List.map_append, List.pairwise_map] at hall
  -- the header is written last
  have hperm : (([⟨0, (finishedHdr w).toBytes⟩] : List Write) ++ (log ++ ws)).Perm
      (log ++ finish w) := by
    rw [hfinish, ← List.append_assoc log]
    exact List.perm_append_comm
  exact (hperm.pairwise_iff fun {x y} hxy => hxy.symm).mp hall

/-! ## Complete shards -/

/-- The file `f` is the shard of the run on top of `prev`, as if all calls had transferred all they were
asked for: the bytes of all these writes are in their places. -/
structure Complete (prev : Bytes) (ops : List (Op env)) (w : WriterV2) (f : Bytes) : Prop where
  ideal : ∃ log, run writerV2New (ops.map Op.uncut) = some (w, log) ∧
    f = applyWrites prev (log ++ finish w) ∧ ∀ x ∈ log ++ finish w, Holds f x.off x.data
  laidOut : LaidOut f w

/-- The shard of full writes is complete. -/
theorem complete_run (prev : Bytes) {ops : List (Op env)} {w : WriterV2} {log : List Write}
    (hrun : run writerV2New ops = some (w, log)) :
    Complete prev ops w (applyWrites prev (log ++ finish w)) := by
  obtain ⟨log', hrun', hsame⟩ := run_uncut hrun
  have heq : applyWrites prev (log ++ finish w) = applyWrites prev (log' ++ finish w) := by
    rw [applyWrites_append, applyWrites_append, hsame]
  refine ⟨⟨log', hrun', heq, fun x hx => ?_⟩, ?_⟩
  · rw [heq]
    exact holds_applyWrites_of_mem prev (apart_run hrun') hx
  · rw [applyWrites_append]
    exact (laidOut_finish _ (history_of_run hrun).header_le).1

/-- **When a shard is complete.** Let the `pwrite` calls of a run and of its `finish` transfer any
number of bytes they may, at least one each. The shard is complete if and only if every byte that was
left out was in the file already, or is a zero in a hole. -/
theorem complete_iff (prev : Bytes) {ops : List (Op env)} {w : WriterV2} {log : List Write}
    (hrun : run writerV2New ops = some (w, log)) {ts : List Transfer}
    (hts : ts.map Transfer.write = log ++ finish w) :
    Complete prev ops w (applyWrites prev (ts.map Transfer.done)) ↔
      ∀ t ∈ ts, t.KeepsTail prev (log ++ finish w) := by
  have hap := apart_run hrun
  rw [← hts] at hap ⊢
  rw [← applyWrites_done_eq_iff hap, hts]
  constructor
  · rintro ⟨⟨log', hrun', heq, -⟩, -⟩
    obtain ⟨log'', hrun'', hsame⟩ := run_uncut hrun
    rw [hrun'] at hrun''
    cases hrun''
    rw [heq, applyWrites_append, applyWrites_append, hsame]
  · intro heq
    rw [heq]
    exact complete_run prev hrun

/-- A shard of one blob, written once more over itself, where every call transfers only one byte. -/
theorem complete_iff_dataCall : ∃ (w : WriterV2) (log : List Write) (prev : Bytes) (ts : List Transfer),
    run writerV2New [.addBlob dataCall] = some (w, log) ∧
    ts.map Transfer.write = log ++ finish w ∧ (∃ t ∈ ts, t.count < t.write.data.length) ∧
    Complete prev [.addBlob dataCall] w (applyWrites prev (ts.map Transfer.done)) := by
  obtain ⟨w, log, hrun⟩ : ∃ w log, run writerV2New [.addBlob dataCall] = some (w, log) :=
    ⟨_, _, run_addBlob rfl⟩
  have hts : ((log ++ finish w).map Transfer.firstByte).map Transfer.write = log ++ finish w := by
    rw [List.map_map]
    exact List.map_id _
  obtain ⟨ws, hfinish, -⟩ := finish_eq_concat w
  have hheader : (⟨0, (finishedHdr w).toBytes⟩ : Write) ∈ log ++ finish w := by
    rw [hfinish]
    simp
  refine ⟨w, log, applyWrites [] (log ++ finish w), _, hrun, hts,
    ⟨_, List.mem_map_of_mem hheader, ?_⟩, (complete_iff _ hrun hts).mpr ?_⟩
  · show min 1 (finishedHdr w).toBytes.length < (finishedHdr w).toBytes.length
    rw [Hdr.length_toBytes rfl]
    decide
  · exact List.forall_mem_map.mpr fun x hx =>
      Transfer.keepsTail_of_holds (holds_applyWrites_of_mem [] (apart_run hrun) hx) _

/-- The first byte of the header of an empty shard. -/
def headerByte : Transfer where
  write := ⟨0, (finishedHdr writerV2New).toBytes⟩
  count := 1
  pos := fun _ => Nat.one_pos
  le := by decide

/-- An empty shard is finished, and the one call of `pwrite` transfers one byte. -/
theorem not_complete : run writerV2New ([] : List (Op smallEnv)) = some (writerV2New, []) ∧
    [headerByte].map Transfer.write = [] ++ finish writerV2New ∧
    ¬ Complete [] ([] : List (Op smallEnv)) writerV2New
      (applyWrites [] ([headerByte].map Transfer.done)) := by
  refine ⟨rfl, rfl, fun h => ?_⟩
  have hdr := h.laidOut.hdr
  revert hdr
  decide

end EosShard.V2
