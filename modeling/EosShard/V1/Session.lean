import EosShard.V1.RoundTrip
import EosShard.Found.Machine

/-!
# A V1 writer that is used again

`write_to_fd` leaves the writer as it has used it: the array stays sorted, and the offsets, sizes and
checksums stay filled in. The writer takes further calls after it, and can be written again.

* `sessionStep`: a call, or a write. `recordsOf`: what a session amounts to in terms of its calls alone.
  A write sorts, so a blob that is added right behind it goes to the record with the greatest name.
* `unwritten`: an entry without what a write has filled in. Neither the calls nor the next write depend
  on the rest (`writeToFd_unwritten`), so a session is simulated by its records (`session_refines`).
* `rewritten_reads_back`: every write of a session is the write of a new writer with these records.
-/

namespace EosShard.V1

open EosShard.Found

variable {env : Env}

/-! ## Sessions -/

/-- A call on the writer, or a write of the shard. -/
inductive SessionOp (env : Env)
  | call (op : Op env)
  | write

/-- One step of a session; what a write puts into the file is left to `writeToFd`. -/
def sessionStep (gv : GVariantFormat) (w : WriterV1 env) : SessionOp env → Option (WriterV1 env)
  | .call op => step w op
  | .write => (writeToFd gv w).map Prod.fst

/-- A record with the calls that have set its blobs. -/
abbrev Section (env : Env) := CString × List (AddBlob env)

/-- The sorting of a write, on the records. -/
def sortSections (S : List (Section env)) : List (Section env) :=
  S.insertionSort fun r s => (rawNameOf r.1).toList ≤ (rawNameOf s.1).toList

/-- One more call for the record that is last. -/
def addCall (S : List (Section env)) (c : AddBlob env) : List (Section env) :=
  S.modify (S.length - 1) fun r => (r.1, r.2 ++ [c])

/-- What one step does to the records. -/
def recordsStep (S : List (Section env)) : SessionOp env → List (Section env)
  | .call (.addRecord hexName) => S ++ [(hexName, [])]
  | .call (.addBlob c) => addCall S c
  | .write => sortSections S

/-- The records of a session, in the order of the writer. -/
def recordsOf (sops : List (SessionOp env)) : List (Section env) :=
  sops.foldl recordsStep []

/-- One more step, at the end of a session. -/
theorem recordsOf_concat (sops : List (SessionOp env)) (sop : SessionOp env) :
    recordsOf (sops ++ [sop]) = recordsStep (recordsOf sops) sop := by
  rw [recordsOf, List.foldl_append]
  rfl

/-- A call goes to the last record. -/
theorem addCall_concat (S : List (Section env)) (r : Section env) (c : AddBlob env) :
    addCall (S ++ [r]) c = S ++ [(r.1, r.2 ++ [c])] := by
  rw [addCall, List.length_append, List.length_singleton, Nat.add_sub_cancel, modify_append_length]

/-- The calls that make the records in a new writer. -/
def opsOf (S : List (Section env)) : List (Op env) :=
  S.flatMap fun r => .addRecord r.1 :: r.2.map .addBlob

/-- The calls of a session, without its writes. -/
def callsOf (sops : List (SessionOp env)) : List (Op env) :=
  sops.filterMap fun sop => match sop with
    | .call op => some op
    | .write => none

/-! ## What a write fills in -/

/-- The entry before a write has filled in its offset, its size and its checksum. -/
def WriterBlobEntry.unwritten (b : WriterBlobEntry env) : WriterBlobEntry env :=
  match b.file with
  | none => b
  | some _ => { b with checksum := List.Vector.replicate 32 0, offs := 0, size := 0 }

/-- The record before a write. -/
def WriterRecordEntry.unwritten (e : WriterRecordEntry env) : WriterRecordEntry env :=
  ⟨e.rawName, e.metadata.unwritten, e.data.unwritten⟩

@[simp] theorem unwritten_rawName (e : WriterRecordEntry env) : e.unwritten.rawName = e.rawName := rfl
@[simp] theorem unwritten_metadata (e : WriterRecordEntry env) :
    e.unwritten.metadata = e.metadata.unwritten := rfl
@[simp] theorem unwritten_data (e : WriterRecordEntry env) :
    e.unwritten.data = e.data.unwritten := rfl

/-- The writer before a write, but for the order. -/
def WriterV1.unwritten (w : WriterV1 env) : WriterV1 env := ⟨w.entries.map (·.unwritten)⟩

/-- Setting a blob forgets what a write has filled in. -/
theorem unwritten_set (b : WriterBlobEntry env) (c : AddBlob env) :
    (b.set c).unwritten = blobEntryOf (some c) := rfl

/-- What a copied blob was before its copy. -/
theorem unwritten_copied (b : WriterBlobEntry env) (offs : ℕ) :
    (b.copied offs).unwritten = b.unwritten := by
  unfold WriterBlobEntry.copied
  cases hfile : b.file with
  | none => rfl
  | some c => simp only [WriterBlobEntry.unwritten, hfile]

/-- Setting a blob of a record is one more call for it, written or not. -/
theorem unwritten_setBlob {e : WriterRecordEntry env} {r : Section env} (h : e.unwritten = entryOf r)
    (c : AddBlob env) : (e.setBlob c).unwritten = entryOf (r.1, r.2 ++ [c]) := by
  rw [← setBlob_entryOf, ← h]
  unfold WriterRecordEntry.setBlob WriterRecordEntry.unwritten at *
  obtain ⟨hname, hmetadata, hdata⟩ := WriterRecordEntry.mk.inj h
  cases c.whichBlob with
  | metadata => simp only [unwritten_set, hmetadata, blobEntryOf_set]
  | data => simp only [unwritten_set, hdata, blobEntryOf_set]

/-! ### The write does not depend on it -/

/-- How a blob is written does not depend on where it was written before. -/
theorem writeBlob_unwritten (pos : ℕ) (b : WriterBlobEntry env) :
    writeBlob pos b.unwritten = writeBlob pos b := by
  unfold WriterBlobEntry.unwritten
  cases hfile : b.file with
  | none => rfl
  | some c => simp only [writeBlob, hfile]

/-- How the blobs are written does not depend on where they were written before. -/
theorem writeBlobs_unwritten (pos : ℕ) (es : List (WriterRecordEntry env)) :
    writeBlobs pos (es.map (·.unwritten)) = writeBlobs pos es := by
  induction es generalizing pos with
  | nil => rfl
  | cons e es ih =>
      simp only [List.map_cons, writeBlobs, unwritten_rawName, unwritten_metadata, unwritten_data,
        writeBlob_unwritten, ih]

/-- The layout of the header does not depend on the offsets in it. -/
theorem shape_unwritten (es : List (WriterRecordEntry env)) :
    (headerEntryVariant (es.map (·.unwritten))).shape = (headerEntryVariant es).shape := by
  have hblob : ∀ b : WriterBlobEntry env,
      (blobEntryVariant b.unwritten).shape = (blobEntryVariant b).shape := by
    intro b
    unfold WriterBlobEntry.unwritten
    cases b.file with
    | none => rfl
    | some c => simp only [blobEntryVariant, BlobEntry.shape, List.Vector.toList_length]
  refine Prod.ext rfl ?_
  simp only [HeaderEntry.shape, headerEntryVariant, List.map_map]
  refine List.map_congr_left fun e _ => ?_
  simp only [Function.comp_apply, RecordEntry.shape, recordEntryVariant, unwritten_rawName,
    unwritten_metadata, unwritten_data, hblob]

/-- The order of the records does not depend on where their blobs were written. -/
theorem sort_unwritten (es : List (WriterRecordEntry env)) :
    (es.insertionSort rawNameLe).map (·.unwritten) =
      (es.map (·.unwritten)).insertionSort rawNameLe :=
  List.map_insertionSort _ _ _ _ fun _ _ _ _ => Iff.rfl

/-- **A write does not depend on what earlier writes have filled in.** -/
theorem writeToFd_unwritten {gv : GVariantFormat} (hgv : gv.Lawful) (w : WriterV1 env) :
    writeToFd gv w.unwritten = writeToFd gv w := by
  have hsize := hgv.length_serialise _ _ (shape_unwritten (w.entries.insertionSort rawNameLe))
  simp only [writeToFd, WriterV1.unwritten, ← sort_unwritten, List.length_map, hsize,
    writeBlobs_unwritten]

/-- To write a record changes only the offsets of its blobs. -/
theorem RecordWritten.unwritten {f : Bytes} {lo hi : ℕ} {e e' : WriterRecordEntry env}
    (h : RecordWritten f lo hi e e') : e'.unwritten = e.unwritten := by
  obtain ⟨offs, hmetadata, -⟩ := h.metadata
  obtain ⟨offs', hdata, -⟩ := h.data
  unfold WriterRecordEntry.unwritten
  rw [h.rawName, hmetadata, hdata, unwritten_copied, unwritten_copied]

/-- What a write leaves in the writer, but for what it has filled in. -/
theorem unwritten_of_writeToFd {gv : GVariantFormat} (hgv : gv.Lawful) {w w' : WriterV1 env}
    {log : List Write} (h : writeToFd gv w = some (w', log)) :
    w'.unwritten = ⟨(w.unwritten.entries).insertionSort rawNameLe⟩ := by
  have hrecords := ((writeToFd_spec hgv h).2 []).records
  rw [WriterV1.unwritten, WriterV1.unwritten, ← sort_unwritten]
  refine congrArg WriterV1.mk ?_
  rw [← List.forall₂_eq_eq_eq, List.forall₂_map_left_iff, List.forall₂_map_right_iff]
  exact (hrecords.imp fun _ _ hr => hr.unwritten).flip

/-- **Writing again writes the same**, and changes nothing. -/
theorem writeToFd_again {gv : GVariantFormat} (hgv : gv.Lawful) {w w' : WriterV1 env}
    {log : List Write} (h : writeToFd gv w = some (w', log)) : writeToFd gv w' = some (w', log) := by
  have : Std.Total (@rawNameLe env) := ⟨fun _ _ => le_total _ _⟩
  have : IsTrans (WriterRecordEntry env) rawNameLe := ⟨fun _ _ _ => le_trans⟩
  have hsorted : ((w.unwritten.entries).insertionSort rawNameLe).insertionSort rawNameLe =
      (w.unwritten.entries).insertionSort rawNameLe :=
    (List.pairwise_insertionSort rawNameLe _).insertionSort_eq
  rw [← writeToFd_unwritten hgv, unwritten_of_writeToFd hgv h, ← h, ← writeToFd_unwritten hgv w]
  unfold writeToFd
  rw [hsorted]

/-! ## The simulation by the records -/

/-- The entries of sorted records are the sorted entries. -/
theorem sort_entryOf (S : List (Section env)) :
    (sortSections S).map entryOf = (S.map entryOf).insertionSort rawNameLe :=
  List.map_insertionSort _ _ _ _ fun r _ s _ => by rw [rawNameLe, entryOf_rawName, entryOf_rawName]

/-- Adding a blob is one more call for the last record. -/
theorem unwritten_of_addBlob {w w' : WriterV1 env} {S : List (Section env)} {c : AddBlob env}
    (hw : w.unwritten = ⟨S.map entryOf⟩) (h : addBlob w c = some w') :
    w'.unwritten = ⟨(addCall S c).map entryOf⟩ := by
  unfold addBlob at h
  split_ifs at h with hne
  cases h
  have hmap : w.entries.map (·.unwritten) = S.map entryOf := congrArg WriterV1.entries hw
  obtain ⟨es, e, hes⟩ := List.eq_nil_or_concat'  w.entries |>.resolve_left hne
  have hS : S ≠ [] := by
    rintro rfl
    rw [List.map_nil, List.map_eq_nil_iff] at hmap
    exact hne hmap
  obtain ⟨S, r, rfl⟩ := List.eq_nil_or_concat' S |>.resolve_left hS
  rw [hes, List.map_append, List.map_append, List.map_singleton, List.map_singleton,
    List.append_singleton_inj] at hmap
  rw [addCall_concat, hes, List.length_append, List.length_singleton, Nat.add_sub_cancel,
    modify_append_length, WriterV1.unwritten]
  simp only [List.map_append, List.map_cons, List.map_nil, hmap.1, unwritten_setBlob hmap.2]

/-- **A session is simulated by its records.** -/
theorem session_refines {gv : GVariantFormat} (hgv : gv.Lawful) {sops : List (SessionOp env)}
    {w : WriterV1 env} (hrun : runActions (sessionStep gv) writerV1New sops = some w) :
    w.unwritten = ⟨(recordsOf sops).map entryOf⟩ := by
  refine runActions_rule (P := fun sops w => w.unwritten = ⟨(recordsOf sops).map entryOf⟩) rfl
    (fun sops w sop w' hw hstep => ?_) hrun
  rw [recordsOf_concat]
  cases sop with
  | write =>
      obtain ⟨⟨w₁, log⟩, hwrite, rfl⟩ := Option.map_eq_some_iff.mp hstep
      rw [unwritten_of_writeToFd hgv hwrite, hw, recordsStep, sort_entryOf]
  | call op =>
      cases op with
      | addBlob c => exact unwritten_of_addBlob hw hstep
      | addRecord hexName =>
          cases hstep
          have hmap : w.entries.map (·.unwritten) = (recordsOf sops).map entryOf :=
            congrArg WriterV1.entries hw
          rw [recordsStep, WriterV1.unwritten, addRecord, List.map_append, List.map_append, hmap]
          rfl

/-! ## A new writer with the same records -/

/-- Calls of `add_blob` go to the last record. -/
theorem run_addBlobs (es : List (WriterRecordEntry env)) (hexName : CString)
    (cs cs' : List (AddBlob env)) (ops : List (Op env)) :
    run ⟨es ++ [entryOf (hexName, cs)]⟩ (cs'.map .addBlob ++ ops) =
      run ⟨es ++ [entryOf (hexName, cs ++ cs')]⟩ ops := by
  induction cs' generalizing cs with
  | nil => rw [List.append_nil, List.map_nil, List.nil_append]
  | cons c cs' ih =>
      have hstep : step ⟨es ++ [entryOf (hexName, cs)]⟩ (.addBlob c) =
          some ⟨es ++ [entryOf (hexName, cs ++ [c])]⟩ := by
        simp only [step, addBlob, List.append_eq_nil_iff, List.cons_ne_self, and_false, if_false]
        rw [← setBlob_entryOf, List.length_append, List.length_singleton, Nat.add_sub_cancel,
          modify_append_length]
      rw [List.map_cons, List.cons_append, run, hstep, Option.bind_eq_bind, Option.bind_some, ih,
        List.append_assoc]
      rfl

/-- The calls of the records make their entries. -/
theorem run_opsOf (es : List (WriterRecordEntry env)) (S : List (Section env)) :
    run ⟨es⟩ (opsOf S) = some ⟨es ++ S.map entryOf⟩ := by
  induction S generalizing es with
  | nil => rw [List.map_nil, List.append_nil]; rfl
  | cons r S ih =>
      have hadd : run ⟨es⟩ (opsOf (r :: S)) =
          run ⟨es ++ [entryOf (r.1, [])]⟩ (r.2.map .addBlob ++ opsOf S) := rfl
      rw [hadd, run_addBlobs, ih, List.append_assoc]
      rfl

/-- Calls of `add_blob` in front of all records stand alone. -/
theorem sections_addBlobs (cs : List (AddBlob env)) (ops : List (Op env)) :
    sections (cs.map .addBlob ++ ops) = (cs ++ (sections ops).1, (sections ops).2) := by
  induction cs with
  | nil => rfl
  | cons c cs ih => rw [List.map_cons, List.cons_append, sections, ih]; rfl

/-- The records of a list of calls that was made from records are these. -/
theorem sections_opsOf (S : List (Section env)) : sections (opsOf S) = ([], S) := by
  induction S with
  | nil => rfl
  | cons r S ih =>
      have hadd : sections (opsOf (r :: S)) = ([], (r.1, (sections (r.2.map .addBlob ++ opsOf S)).1) ::
          (sections (r.2.map .addBlob ++ opsOf S)).2) := rfl
      rw [hadd, sections_addBlobs, ih, List.append_nil]

/-- The calls of the records are calls of the session. -/
theorem mem_of_mem_recordsOf {sops : List (SessionOp env)} {r : Section env}
    (hr : r ∈ recordsOf sops) {c : AddBlob env} (hc : c ∈ r.2) :
    SessionOp.call (.addBlob c) ∈ sops := by
  induction sops using List.reverseRecOn generalizing r with
  | nil => cases hr
  | append_singleton sops sop ih =>
      rw [recordsOf_concat] at hr
      rw [List.mem_append, List.mem_singleton]
      cases sop with
      | write => exact Or.inl (ih ((List.mem_insertionSort _).mp hr) hc)
      | call op =>
          cases op with
          | addRecord hexName =>
              rcases List.mem_append.mp hr with hr | hr
              · exact Or.inl (ih hr hc)
              · rw [List.mem_singleton.mp hr] at hc
                cases hc
          | addBlob c' =>
              rcases List.eq_nil_or_concat' (recordsOf sops) with hnil | ⟨S, r', hS⟩
              · rw [recordsStep, hnil] at hr
                cases hr
              · rw [recordsStep, hS, addCall_concat] at hr
                rw [hS] at ih
                rcases List.mem_append.mp hr with hr | hr
                · exact Or.inl (ih (List.mem_append_left _ hr) hc)
                · rw [List.mem_singleton.mp hr] at hc
                  rcases List.mem_append.mp hc with hc | hc
                  · exact Or.inl (ih (List.mem_append_right _ List.mem_cons_self) hc)
                  · rw [List.mem_singleton.mp hc]
                    exact Or.inr rfl

/-- A call of `add_blob` in such a list belongs to one of the records. -/
theorem mem_of_mem_opsOf {S : List (Section env)} {c : AddBlob env} (h : Op.addBlob c ∈ opsOf S) :
    ∃ r ∈ S, c ∈ r.2 := by
  obtain ⟨r, hr, hop⟩ := List.mem_flatMap.mp h
  simp only [List.mem_cons, List.mem_map, Op.addBlob.injEq, exists_eq_right, reduceCtorEq,
    false_or] at hop
  exact ⟨r, hr, hop⟩

/-! ## Sessions without a blob behind a write -/

/-- No blob is added right behind a write. -/
def NoBlobBehindWrite (sops : List (SessionOp env)) : Prop :=
  sops.IsChain fun sop sop' => sop = .write → ∀ c, sop' ≠ .call (.addBlob c)

/-- A call at the end of a session is the last of its calls. -/
theorem callsOf_concat (sops : List (SessionOp env)) (op : Op env) :
    callsOf (sops ++ [.call op]) = callsOf sops ++ [op] := List.filterMap_append

/-- A write is not a call. -/
theorem callsOf_write (sops : List (SessionOp env)) : callsOf (sops ++ [.write]) = callsOf sops := by
  rw [callsOf, List.filterMap_append]
  exact List.append_nil _

/-- One more record, at the end of the calls. -/
theorem sections_addRecord (ops : List (Op env)) (hexName : CString) :
    sections (ops ++ [.addRecord hexName]) =
      ((sections ops).1, (sections ops).2 ++ [(hexName, [])]) := by
  induction ops with
  | nil => rfl
  | cons op ops ih =>
      cases op with
      | addRecord hexName' => simp only [List.cons_append, sections, ih]
      | addBlob c => simp only [List.cons_append, sections, ih]

/-- One more blob is for the last record; before the first it is for none. -/
theorem sections_addBlob (ops : List (Op env)) (c : AddBlob env) :
    (sections (ops ++ [.addBlob c])).2 = addCall (sections ops).2 c ∧
      (sections (ops ++ [.addBlob c])).1 =
        (sections ops).1 ++ if (sections ops).2 = [] then [c] else [] := by
  induction ops with
  | nil => exact ⟨rfl, rfl⟩
  | cons op ops ih =>
      cases op with
      | addBlob c' =>
          refine ⟨ih.1, ?_⟩
          rw [List.cons_append, sections, sections, ih.2]
          rfl
      | addRecord hexName =>
          refine ⟨?_, rfl⟩
          rw [List.cons_append, sections, sections, ih.1, ih.2]
          rcases List.eq_nil_or_concat' (sections ops).2 with hnil | ⟨S, r, hS⟩
          · rw [hnil]
            rfl
          · have hne : (sections ops).2 ≠ [] := by
              rw [hS]
              exact List.append_ne_nil_of_right_ne_nil _ (List.cons_ne_nil _ _)
            rw [if_neg hne, List.append_nil, hS, addCall_concat]
            exact (addCall_concat ((hexName, (sections ops).1) :: S) r c).symm

/-- **Where no blob is added right behind a write**, the records are those of the calls, in another
order; the last ones agree up to the next write. -/
theorem recordsOf_perm {sops : List (SessionOp env)} (h : NoBlobBehindWrite sops) :
    (recordsOf sops).Perm (sections (callsOf sops)).2 ∧
      (sops.getLast? ≠ some .write →
        (recordsOf sops).getLast? = (sections (callsOf sops)).2.getLast?) := by
  induction sops using List.reverseRecOn with
  | nil => exact ⟨.nil, fun _ => rfl⟩
  | append_singleton sops sop ih =>
      obtain ⟨hbefore, -, hjoin⟩ := List.isChain_append.mp h
      obtain ⟨hperm, hlast⟩ := ih hbefore
      rw [recordsOf_concat]
      cases sop with
      | write =>
          rw [callsOf_write]
          refine ⟨(List.perm_insertionSort _ _).trans hperm, fun hne => ?_⟩
          rw [List.getLast?_concat] at hne
          exact absurd rfl hne
      | call op =>
          rw [callsOf_concat]
          cases op with
          | addRecord hexName =>
              rw [sections_addRecord]
              refine ⟨hperm.append_right _, fun _ => ?_⟩
              rw [recordsStep, List.getLast?_concat, List.getLast?_concat]
          | addBlob c =>
              rw [(sections_addBlob _ c).1]
              -- the two last records are the same one
              have hsame := hlast fun hwrite => hjoin _ hwrite _ rfl rfl c rfl
              rcases List.eq_nil_or_concat' (recordsOf sops) with hnil | ⟨S, r, hS⟩
              · rw [hnil] at hperm ⊢
                rw [hperm.nil_eq.symm]
                exact ⟨.nil, fun _ => rfl⟩
              · rcases List.eq_nil_or_concat' (sections (callsOf sops)).2 with hnil | ⟨T, t, hT⟩
                · rw [hnil] at hperm
                  rw [hperm.eq_nil] at hS
                  exact absurd hS.symm (List.append_ne_nil_of_right_ne_nil _ (List.cons_ne_nil _ _))
                · rw [hS, hT, List.getLast?_concat, List.getLast?_concat, Option.some.injEq] at hsame
                  subst hsame
                  rw [hS, hT] at hperm ⊢
                  rw [recordsStep, addCall_concat, addCall_concat]
                  refine ⟨((List.perm_append_right_iff _).mp hperm).append_right _, fun _ => ?_⟩
                  rw [List.getLast?_concat, List.getLast?_concat]

/-- Reading back does not depend on the order in which the records were added. -/
theorem RoundTrip.perm {f : Bytes} {impl : ShardFileImplV1} {ops ops' : List (Op env)}
    (h : RoundTrip f impl ops) (hperm : (sections ops).2.Perm (sections ops').2) :
    RoundTrip f impl ops' where
  list := by
    obtain ⟨order, horder, hall⟩ := h.list
    exact ⟨order, horder.trans hperm, hall⟩
  sorted := h.sorted
  strict := fun hnodup => h.strict ((hperm.map _).nodup_iff.mpr hnodup)
  find_none := fun x => (h.find_none x).trans
    ⟨fun hx r hr => hx r (hperm.mem_iff.mpr hr), fun hx r hr => hx r (hperm.mem_iff.mp hr)⟩
  find_some := h.find_some

/-! ## Reading back -/

/-- **Every write of a session reads back.** Whatever was written before, a write writes what a new
writer with the records of the session writes, and writing again at once writes it a second time. The
shard reads back as these records; they are the records of the calls, if no blob was added right
behind a write. -/
theorem rewritten_reads_back {gv : GVariantFormat} (hgv : gv.Lawful) {sops : List (SessionOp env)}
    {w w' : WriterV1 env} {log : List Write}
    (hrun : runActions (sessionStep gv) writerV1New sops = some w)
    (hwrite : writeToFd gv w = some (w', log))
    (hutf8 : ∀ c, SessionOp.call (.addBlob c) ∈ sops → utf8Validate c.type.chars = true)
    (hsize : ∀ c, SessionOp.call (.addBlob c) ∈ sops → c.stored.length < 2 ^ 31) :
    (∃ w₀, run writerV1New (opsOf (recordsOf sops)) = some w₀ ∧ writeToFd gv w₀ = some (w', log)) ∧
      writeToFd gv w' = some (w', log) ∧
      ∀ prev, ∃ impl,
        (∀ heap, detectVersion gv heap (applyWrites prev log) = .ok (.v1 impl)) ∧
        RoundTrip (applyWrites prev log) impl (opsOf (recordsOf sops)) ∧
        (NoBlobBehindWrite sops → RoundTrip (applyWrites prev log) impl (callsOf sops)) := by
  have hnew : run writerV1New (opsOf (recordsOf sops)) = some w.unwritten := by
    rw [session_refines hgv hrun]
    exact run_opsOf [] _
  have hsame : writeToFd gv w.unwritten = some (w', log) := (writeToFd_unwritten hgv w).trans hwrite
  have hcalls : ∀ c, Op.addBlob c ∈ opsOf (recordsOf sops) → SessionOp.call (.addBlob c) ∈ sops := by
    intro c hc
    obtain ⟨r, hr, hcr⟩ := mem_of_mem_opsOf hc
    exact mem_of_mem_recordsOf hr hcr
  refine ⟨⟨_, hnew, hsame⟩, writeToFd_again hgv hwrite, fun prev => ?_⟩
  have hfinished := finished_of_run hgv prev hnew hsame fun c hc => hutf8 c (hcalls c hc)
  have hback := hfinished.roundTrip fun c hc => hsize c (hcalls c hc)
  refine ⟨_, hfinished.detectVersion hgv, hback, fun hno => hback.perm ?_⟩
  rw [sections_opsOf]
  exact (recordsOf_perm hno).1

/-- The file of the example is short. -/
theorem length_oneFile_le : oneFile.contents.length ≤ 4096 * 4 := by decide

/-- Two records, a write, and a blob behind it. -/
def lateBlob : List (SessionOp smallEnv) :=
  [.call (.addRecord lastName), .call (.addRecord digitsName), .write,
    .call (.addBlob (metadataCall oneFile length_oneFile_le))]

/-- The blob goes to the record with the greatest name, which was not added last. -/
example : (recordsOf lateBlob).map (fun r => (r.1, r.2.length)) = [(digitsName, 0), (lastName, 1)] := by
  decide +kernel

/-- The blob that was set behind the first write reads back from the second one. -/
theorem rewritten_reads_back_lateBlob : ∃ w w' log impl,
    runActions (sessionStep gvariant) writerV1New lateBlob = some w ∧
      writeToFd gvariant w = some (w', log) ∧
      (∀ heap, detectVersion gvariant heap (applyWrites [] log) = .ok (.v1 impl)) ∧
      RoundTrip (applyWrites [] log) impl (opsOf (recordsOf lateBlob)) := by
  have hsome : ((runActions (sessionStep gvariant) writerV1New lateBlob).bind
      (writeToFd gvariant)).isSome = true := by
    decide +kernel
  obtain ⟨⟨w', log⟩, hbind⟩ := Option.isSome_iff_exists.mp hsome
  obtain ⟨w, hrun, hwrite⟩ := Option.bind_eq_some_iff.mp hbind
  have hcall : ∀ c, SessionOp.call (.addBlob c) ∈ lateBlob →
      utf8Validate c.type.chars = true ∧ c.stored.length < 2 ^ 31 := by
    intro c hc
    simp only [lateBlob, List.mem_cons, reduceCtorEq, SessionOp.call.injEq, Op.addBlob.injEq,
      List.not_mem_nil, false_or, or_false] at hc
    subst hc
    exact ⟨by decide, by decide⟩
  obtain ⟨impl, hdetect, hback, -⟩ := (rewritten_reads_back gvariant_lawful hrun hwrite
    (fun c hc => (hcall c hc).1) fun c hc => (hcall c hc).2).2.2 []
  exact ⟨w, w', log, impl, hrun, hwrite, hdetect, hback⟩

end EosShard.V1
