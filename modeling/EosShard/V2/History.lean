import EosShard.V2.ConstantPool

/-!
# The history of a writer

What a V2 writer holds is described by the calls it has received. `calls ops` are the `add_blob`
calls of a run that passed the length checks, in order; the writer has one blob entry for each, in
the same order.

* `addBlob_eq` is a whole `add_blob` call as one update; `step_cases` lists what one call of a run
  can do.
* `run_rule` is the induction over runs.
* `History` is the part of the invariant that holds without any bound on the amount of data:
  every entry carries the fields of its call, the pool is in order, and all data is written between
  the header and the running offset. `history_of_run` establishes it.
-/

namespace EosShard.V2

open EosShard.Found

variable {env : Env}

/-! ## One call -/

/-- The entry of a call once its data has been placed. -/
def AddBlob.placed (c : AddBlob env) (nameOffs contentTypeOffs dataStart : ℕ) : BlobEntry where
  offs := 0
  name := c.name
  sblob := { flags := c.flags.toNat, nameOffs := nameOffs, contentTypeOffs := contentTypeOffs,
             csum := c.csum, size := c.stored.length,
             uncompressedSize := c.file.contents.length, dataStart := dataStart }

/-- The call finds no data under its checksum. -/
def IsNew (w : WriterV2) (c : AddBlob env) : Prop := lookupDataStart w c.csum = 0

/-- Whether a content is new can be decided. -/
instance (w : WriterV2) (c : AddBlob env) : Decidable (IsNew w c) :=
  inferInstanceAs (Decidable (_ = 0))

/-- Where the call says its data is. -/
def dataStartOf (w : WriterV2) (c : AddBlob env) : ℕ :=
  if IsNew w c then w.ctxOffset else lookupDataStart w c.csum

/-- A content that is not in the table goes to the end. -/
theorem dataStartOf_eq_ite (w : WriterV2) (c : AddBlob env) :
    dataStartOf w c =
      if lookupDataStart w c.csum = 0 then w.ctxOffset else lookupDataStart w c.csum := rfl

/-- **A call that passes the length checks**, as one update of the writer. -/
theorem addBlob_eq {w : WriterV2} {c : AddBlob env} (h : c.Accepted) :
    addBlob w c =
      ({ ctxOffset := if IsNew w c then align (w.ctxOffset + c.stored.length) else w.ctxOffset
         blobs := w.blobs ++ [c.placed (poolSection w c).2.1 (poolSection w c).2.2 (dataStartOf w c)]
         records := w.records
         csumToDataStart := if IsNew w c then
           w.csumToDataStart.insert c.csum (guintToPointer w.ctxOffset) else w.csumToDataStart
         cpool := (poolSection w c).1.cpool },
        if IsNew w c then seqWrites w.ctxOffset c.reads else [], w.blobs.length) := by
  have hlook : lookupDataStart (poolSection w c).1 c.csum = lookupDataStart w c.csum := rfl
  have hblobs : (poolSection w c).1.blobs = w.blobs := rfl
  unfold addBlob reserveSection dataStartOf
  simp only [h, if_true, hlook]
  by_cases hnew : IsNew w c
  · have hz : lookupDataStart w c.csum = 0 := hnew
    simp only [hz, hnew, if_true, assignSection, hblobs, List.length_append, List.length_singleton,
      Nat.add_sub_cancel, modify_append_length]
    rfl
  · have hz : ¬ lookupDataStart w c.csum = 0 := hnew
    simp only [hz, hnew, if_false, assignSection, hblobs, List.length_append, List.length_singleton,
      Nat.add_sub_cancel, modify_append_length, Bool.false_eq_true]
    rfl

/-- A call that does not pass the length checks changes nothing. -/
theorem addBlob_rejected {w : WriterV2} {c : AddBlob env} (h : ¬ c.Accepted) :
    addBlob w c = (w, [], 0) := by
  simp [addBlob, h]

/-! ## Runs -/

/-- The `add_blob` calls that pass the length checks. -/
def calls (ops : List (Op env)) : List (AddBlob env) :=
  ops.flatMap fun
    | .addBlob c => if c.Accepted then [c] else []
    | _ => []

/-- The accepted calls of two runs, one after the other. -/
theorem calls_append (ops ops' : List (Op env)) : calls (ops ++ ops') = calls ops ++ calls ops' :=
  List.flatMap_append

/-- The calls of a run passed the length checks. -/
theorem accepted_of_mem_calls {ops : List (Op env)} {c : AddBlob env} (hc : c ∈ calls ops) :
    c.Accepted := by
  obtain ⟨op, -, hop⟩ := List.mem_flatMap.mp hc
  cases op with
  | addBlob c' =>
      by_cases hc' : c'.Accepted
      · simp only [hc', if_true, List.mem_singleton] at hop
        rwa [hop]
      · simp only [hc', if_false, List.not_mem_nil] at hop
  | addRecord hexName => cases hop
  | addBlobToRecord recordId blobId => cases hop

/-- An accepted call is among the accepted calls. -/
theorem calls_addBlob {c : AddBlob env} (h : c.Accepted) : calls [.addBlob c] = [c] := by
  simp [calls, h]

/-- **What one call of a run can do**: add an entry, or leave all that concerns blobs alone. -/
theorem step_cases {w w' : WriterV2} {op : Op env} {ws : List Write}
    (h : step w op = some (w', ws)) :
    (∃ c, op = .addBlob c ∧ c.Accepted ∧ w' = (addBlob w c).1 ∧ ws = (addBlob w c).2.1) ∨
      (calls [op] = [] ∧ ws = [] ∧ w'.ctxOffset = w.ctxOffset ∧ w'.blobs = w.blobs ∧
        w'.csumToDataStart = w.csumToDataStart ∧ w'.cpool = w.cpool) := by
  cases op with
  | addBlob c =>
      simp only [step, Option.some.injEq, Prod.mk.injEq] at h
      obtain ⟨rfl, rfl⟩ := h
      by_cases hc : c.Accepted
      · exact Or.inl ⟨c, rfl, hc, rfl, rfl⟩
      · rw [addBlob_rejected hc]
        exact Or.inr ⟨by simp [calls, hc], rfl, rfl, rfl, rfl, rfl⟩
  | addRecord hexName =>
      simp only [step, addRecord, Option.some.injEq, Prod.mk.injEq] at h
      obtain ⟨rfl, rfl⟩ := h
      exact Or.inr ⟨rfl, rfl, rfl, rfl, rfl, rfl⟩
  | addBlobToRecord recordId blobId =>
      simp only [step, addBlobToRecord] at h
      split_ifs at h
      · simp only [Option.map_some, Option.some.injEq, Prod.mk.injEq] at h
        obtain ⟨rfl, rfl⟩ := h
        exact Or.inr ⟨rfl, rfl, rfl, rfl, rfl, rfl⟩
      · cases h

/-- A run is its first step and the rest. -/
theorem run_cons_eq_some {w : WriterV2} {op : Op env} {ops : List (Op env)}
    {r : WriterV2 × List Write} :
    run w (op :: ops) = some r ↔ ∃ w₁ ws₁ ws₂, step w op = some (w₁, ws₁) ∧
      run w₁ ops = some (r.1, ws₂) ∧ r.2 = ws₁ ++ ws₂ := by
  obtain ⟨w', ws⟩ := r
  rw [run]
  constructor
  · intro h
    obtain ⟨⟨w₁, ws₁⟩, h₁, h⟩ := Option.bind_eq_some_iff.mp h
    obtain ⟨⟨w₂, ws₂⟩, h₂, h⟩ := Option.bind_eq_some_iff.mp h
    cases h
    exact ⟨w₁, ws₁, ws₂, h₁, h₂, rfl⟩
  · rintro ⟨w₁, ws₁, ws₂, h₁, h₂, h⟩
    simp only at h h₂
    simp [h₁, h₂, h]

/-- A run that starts with `add_blob`. -/
theorem run_addBlob {w w' : WriterV2} {c : AddBlob env} {ops : List (Op env)} {log : List Write}
    (h : run (addBlob w c).1 ops = some (w', log)) :
    run w (.addBlob c :: ops) = some (w', (addBlob w c).2.1 ++ log) :=
  run_cons_eq_some.mpr ⟨_, _, log, rfl, h, rfl⟩

/-- One more step, at the end of a run. -/
theorem run_concat {w w' w'' : WriterV2} {ops : List (Op env)} {op : Op env} {log ws : List Write}
    (hrun : run w ops = some (w', log)) (h : step w' op = some (w'', ws)) :
    run w (ops ++ [op]) = some (w'', log ++ ws) := by
  induction ops generalizing w log with
  | nil =>
      cases hrun
      exact run_cons_eq_some.mpr ⟨w'', ws, [], h, rfl, by simp⟩
  | cons op' ops ih =>
      obtain ⟨w₁, ws₁, ws₂, h₁, h₂, h₃⟩ := run_cons_eq_some.mp hrun
      simp only at h₃
      subst h₃
      exact run_cons_eq_some.mpr ⟨w₁, ws₁, ws₂ ++ ws, h₁, ih h₂, by simp⟩

/-- Calls that concern no blob leave the blobs, the pool and the file alone. -/
theorem run_of_calls_eq_nil {w w' : WriterV2} {ops : List (Op env)} {log : List Write}
    (hrun : run w ops = some (w', log)) (hops : calls ops = []) :
    log = [] ∧ w'.ctxOffset = w.ctxOffset ∧ w'.blobs = w.blobs ∧ w'.cpool = w.cpool := by
  induction ops generalizing w log with
  | nil =>
      cases hrun
      exact ⟨rfl, rfl, rfl, rfl⟩
  | cons op ops ih =>
      obtain ⟨w₁, ws₁, ws₂, h₁, h₂, hlog⟩ := run_cons_eq_some.mp hrun
      have hcons : calls [op] ++ calls ops = [] := (calls_append [op] ops).symm.trans hops
      obtain ⟨hop, hrest⟩ := List.append_eq_nil_iff.mp hcons
      obtain ⟨rfl, hoff, hblobs, hpool⟩ := ih h₂ hrest
      rcases step_cases h₁ with ⟨c, rfl, hc, -, -⟩ | ⟨-, rfl, hoff₁, hblobs₁, -, hpool₁⟩
      · rw [calls_addBlob hc] at hop
        cases hop
      · exact ⟨hlog, hoff.trans hoff₁, hblobs.trans hblobs₁, hpool.trans hpool₁⟩

/-- **Induction over runs**: what holds of a new writer and is kept by every call holds of the
history of every run. -/
theorem run_rule {P : List (Op env) → WriterV2 → List Write → Prop} (h0 : P [] writerV2New [])
    (hstep : ∀ ops w log op w' ws, run writerV2New ops = some (w, log) → P ops w log →
      step w op = some (w', ws) → P (ops ++ [op]) w' (log ++ ws))
    {ops : List (Op env)} {w : WriterV2} {log : List Write}
    (hrun : run writerV2New ops = some (w, log)) : P ops w log := by
  have key : ∀ ops pre (w₀ : WriterV2) log₀ w log, run writerV2New pre = some (w₀, log₀) →
      P pre w₀ log₀ → run w₀ ops = some (w, log) → P (pre ++ ops) w (log₀ ++ log) := by
    intro ops
    induction ops with
    | nil =>
        intro pre w₀ log₀ w log _ hP h
        cases h
        simpa using hP
    | cons op ops ih =>
        intro pre w₀ log₀ w log hpre hP h
        obtain ⟨w₁, ws₁, ws₂, h₁, h₂, rfl⟩ := run_cons_eq_some.mp h
        have := ih (pre ++ [op]) w₁ (log₀ ++ ws₁) w ws₂ (run_concat hpre h₁)
          (hstep _ _ _ _ _ _ hpre hP h₁) h₂
        simpa using this
  simpa using key ops [] writerV2New [] w log rfl h0 hrun

/-! ## The invariant -/

/-- An entry carries the fields of its call. -/
structure Carries (c : AddBlob env) (b : BlobEntry) : Prop where
  offs : b.offs = 0
  name : b.name = c.name
  flags : b.sblob.flags = c.flags.toNat
  csum : b.sblob.csum = c.csum
  size : b.sblob.size = c.stored.length
  uncompressedSize : b.sblob.uncompressedSize = c.file.contents.length

/-- What holds in every run, whatever the amount of data. -/
structure History (ops : List (Op env)) (w : WriterV2) (log : List Write) : Prop where
  /-- Every accepted call has its entry. -/
  carries : List.Forall₂ Carries (calls ops) w.blobs
  /-- The pool is in order. -/
  pool : w.cpool.Ok
  /-- Every name and every content type is in the pool. -/
  strings : ∀ c ∈ calls ops, c.name ∈ w.cpool.strings ∧ c.type ∈ w.cpool.strings
  /-- Data goes behind the header. -/
  header_le : Hdr.sizeof ≤ w.ctxOffset
  /-- Nothing is written into the place of the header. -/
  writesFrom : WritesFrom Hdr.sizeof log
  /-- The offsets in the table are not beyond the running offset. -/
  table_le : ∀ x p, w.csumToDataStart.lookup x = some p → p ≤ w.ctxOffset

/-- The writer has one entry for each accepted call. -/
theorem History.length_blobs {ops : List (Op env)} {w : WriterV2} {log : List Write}
    (h : History ops w log) : w.blobs.length = (calls ops).length := h.carries.length_eq.symm

/-- A pointer does not make a number greater. -/
theorem guintToPointer_le (n : ℕ) : guintToPointer n ≤ n := Nat.mod_le _ _

/-- An aligned position does not lie in front of the position. -/
theorem le_align (n : ℕ) : n ≤ align n := le_alignUp (by norm_num) n

/-- The writer does not move back. -/
theorem le_ctxOffset_addBlob (w : WriterV2) (c : AddBlob env) :
    w.ctxOffset ≤ (addBlob w c).1.ctxOffset := by
  by_cases hc : c.Accepted
  · rw [addBlob_eq hc]
    simp only
    split_ifs
    · exact (Nat.le_add_right _ _).trans (le_align _)
    · exact le_refl _
  · rw [addBlob_rejected hc]

/-- The pool after the first section of a call. -/
theorem poolSection_spec {w : WriterV2} (h : w.cpool.Ok) (c : AddBlob env) :
    (poolSection w c).1.cpool.Ok ∧ w.cpool.strings <+: (poolSection w c).1.cpool.strings ∧
      c.name ∈ (poolSection w c).1.cpool.strings ∧ c.type ∈ (poolSection w c).1.cpool.strings := by
  obtain ⟨hok, hpre, hmem, -⟩ := constantPoolAdd_spec h c.name
  obtain ⟨hok', hpre', hmem', -⟩ := constantPoolAdd_spec hok c.type
  exact ⟨hok', hpre.trans hpre', hpre'.subset hmem, hmem'⟩

/-- Offsets and pools only grow. -/
theorem step_mono {w w' : WriterV2} {op : Op env} {ws : List Write} (hp : w.cpool.Ok)
    (h : step w op = some (w', ws)) :
    w.ctxOffset ≤ w'.ctxOffset ∧ w.cpool.strings <+: w'.cpool.strings := by
  rcases step_cases h with ⟨c, -, hc, rfl, -⟩ | ⟨-, -, hoff, -, -, hpool⟩
  · refine ⟨le_ctxOffset_addBlob w c, ?_⟩
    rw [addBlob_eq hc]
    exact (poolSection_spec hp c).2.1
  · rw [hoff, hpool]
    exact ⟨le_refl _, List.prefix_rfl⟩

/-- One step keeps the history. -/
theorem History.step {ops : List (Op env)} {w w' : WriterV2} {log ws : List Write} {op : Op env}
    (hw : History ops w log) (h : step w op = some (w', ws)) :
    History (ops ++ [op]) w' (log ++ ws) := by
  rcases step_cases h with ⟨c, rfl, hc, rfl, rfl⟩ | ⟨hcalls, rfl, hoff, hblobs, htab, hpool⟩
  · obtain ⟨hok, hpre, hname, htype⟩ := poolSection_spec hw.pool c
    have hle := le_ctxOffset_addBlob w c
    rw [addBlob_eq hc] at hle ⊢
    simp only at hle ⊢
    refine ⟨?_, hok, ?_, hw.header_le.trans hle, ?_, ?_⟩
    · rw [calls_append, calls_addBlob hc]
      exact List.rel_append hw.carries (List.Forall₂.cons ⟨rfl, rfl, rfl, rfl, rfl, rfl⟩ .nil)
    · intro c' hc'
      rw [calls_append, calls_addBlob hc] at hc'
      rcases List.mem_append.mp hc' with hc' | hc'
      · exact ⟨hpre.subset (hw.strings c' hc').1, hpre.subset (hw.strings c' hc').2⟩
      · rw [List.mem_singleton.mp hc']
        exact ⟨hname, htype⟩
    · refine hw.writesFrom.append ?_
      split_ifs
      · exact (writesFrom_seqWrites _ _).mono hw.header_le
      · intro x hx
        cases hx
    · intro x p hp
      simp only at hp
      refine le_trans ?_ hle
      split_ifs at hp
      · rw [Table.lookup_insert] at hp
        split_ifs at hp
        · cases hp
          exact guintToPointer_le _
        · exact hw.table_le x p hp
      · exact hw.table_le x p hp
  · refine ⟨?_, hpool ▸ hw.pool, ?_, hoff ▸ hw.header_le, ?_, ?_⟩
    · rw [calls_append, hcalls, List.append_nil, hblobs]
      exact hw.carries
    · rw [calls_append, hcalls, List.append_nil, hpool]
      exact hw.strings
    · rw [List.append_nil]
      exact hw.writesFrom
    · rw [htab, hoff]
      exact hw.table_le

/-- A new writer has no history. -/
theorem history_new : History ([] : List (Op env)) writerV2New [] where
  carries := .nil
  pool := constantPoolInit_ok
  strings := by simp [calls]
  header_le := le_refl _
  writesFrom := fun _ hw => absurd hw List.not_mem_nil
  table_le := fun _ _ hp => by cases hp

/-- The invariant holds in every run. -/
theorem history_of_run {ops : List (Op env)} {w : WriterV2} {log : List Write}
    (hrun : run writerV2New ops = some (w, log)) : History ops w log :=
  run_rule history_new (fun _ _ _ _ _ _ _ hw h => hw.step h) hrun

end EosShard.V2
