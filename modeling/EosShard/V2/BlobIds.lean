import EosShard.Found.Machine
import EosShard.V2.Filed

/-!
# Blob ids

`add_blob` answers with an index into the array of blobs, and with 0 if it turns the call away: 0 is
the id of the first blob. A client keeps every answer and passes some of them to
`add_blob_to_record`.

* `refines_of_run`: the run of a client is a run of the writer, in which an accepted call has got the
  index of its own blob and all others have got 0.
* `idsIdentify_iff`: **when ids identify their blobs**: if all calls are accepted, or none is.
-/

namespace EosShard.V2

open EosShard.Found

variable {env : Env}

/-! ## Clients -/

/-- A call of a client. -/
inductive ClientOp (env : Env)
  | addBlob (c : AddBlob env)
  | addRecord (hexName : CString)
  /-- `add_blob_to_record` with what the `i`-th call of `add_blob` has returned. -/
  | attach (recordId i : ℕ)

/-- A client with its writer. -/
structure Client where
  writer : WriterV2
  /-- What has been written. -/
  log : List Write
  /-- What the calls of `add_blob` have returned. -/
  returned : List ℕ

/-- A client with a new writer. -/
def clientNew : Client := ⟨writerV2New, [], []⟩

/-- One call. -/
def clientStep (s : Client) : ClientOp env → Option Client
  | .addBlob c =>
      some ⟨(addBlob s.writer c).1, s.log ++ (addBlob s.writer c).2.1,
        s.returned ++ [(addBlob s.writer c).2.2]⟩
  | .addRecord hexName => some ⟨(addRecord s.writer hexName).1, s.log, s.returned⟩
  | .attach recordId i => do
      let blobId ← s.returned[i]?
      let w ← addBlobToRecord s.writer recordId blobId
      return ⟨w, s.log, s.returned⟩

/-- The calls of `add_blob`, accepted or not. -/
def issued (ops : List (ClientOp env)) : List (AddBlob env) :=
  ops.filterMap fun
    | .addBlob c => some c
    | _ => none

/-- The blobs that two runs ask for, one after the other. -/
theorem issued_append (ops ops' : List (ClientOp env)) :
    issued (ops ++ ops') = issued ops ++ issued ops' := List.filterMap_append

/-! ## What the calls return -/

/-- The value that `c` has returned: the number of its call among the accepted ones, or 0. -/
def ReturnedFor (cs : List (AddBlob env)) (c : AddBlob env) (id : ℕ) : Prop :=
  if c.Accepted then cs[id]? = some c else id = 0

/-- The blob of an id stays the same. -/
theorem ReturnedFor.append {cs : List (AddBlob env)} {c : AddBlob env} {id : ℕ}
    (h : ReturnedFor cs c id) (cs' : List (AddBlob env)) : ReturnedFor (cs ++ cs') c id := by
  unfold ReturnedFor at *
  split_ifs at h ⊢
  · rw [List.getElem?_append_left (List.getElem?_eq_some_iff.mp h).1, h]
  · exact h

/-- The run `wops` of the writer is what the client makes it do. -/
structure Refines (ops : List (ClientOp env)) (s : Client) (wops : List (Op env)) : Prop where
  run : run writerV2New wops = some (s.writer, s.log)
  calls : ∀ c ∈ issued ops, c.Accepted → c ∈ calls wops
  issued : ∀ c ∈ V2.calls wops, c ∈ issued ops
  returned : List.Forall₂ (ReturnedFor (V2.calls wops)) (V2.issued ops) s.returned
  attached : ∀ r, ∀ id ∈ attachedIds wops r,
    ∃ i, ClientOp.attach r i ∈ ops ∧ s.returned[i]? = some id

/-- A client's `add_blob` is one of the writer. -/
theorem Refines.addBlob {ops : List (ClientOp env)} {s : Client} {wops : List (Op env)}
    (h : Refines ops s wops) (c : AddBlob env) :
    Refines (ops ++ [.addBlob c]) ⟨(addBlob s.writer c).1, s.log ++ (addBlob s.writer c).2.1,
      s.returned ++ [(addBlob s.writer c).2.2]⟩ (wops ++ [.addBlob c]) := by
  have hissued : V2.issued (ops ++ [.addBlob c]) = V2.issued ops ++ [c] := issued_append _ _
  have hlast : ReturnedFor (V2.calls (wops ++ [.addBlob c])) c (V2.addBlob s.writer c).2.2 := by
    unfold ReturnedFor
    split_ifs with hc
    · have hlen := (history_of_run h.run).length_blobs
      rw [calls_append, calls_addBlob hc, addBlob_eq hc]
      simp only [hlen]
      exact List.getElem?_concat_length
    · rw [addBlob_rejected hc]
  refine ⟨run_concat h.run rfl, ?_, ?_, ?_, ?_⟩
  · intro c' hc' hacc
    rw [hissued] at hc'
    rw [calls_append]
    rcases List.mem_append.mp hc' with hc' | hc'
    · exact List.mem_append_left _ (h.calls c' hc' hacc)
    · obtain rfl := List.mem_singleton.mp hc'
      rw [calls_addBlob hacc]
      exact List.mem_append_right _ (List.mem_singleton_self _)
  · intro c' hc'
    rw [hissued]
    rw [calls_append] at hc'
    rcases List.mem_append.mp hc' with hc' | hc'
    · exact List.mem_append_left _ (h.issued c' hc')
    · have hacc := accepted_of_mem_calls hc'
      by_cases hc : c.Accepted
      · rw [calls_addBlob hc] at hc'
        exact List.mem_append_right _ hc'
      · simp [V2.calls, hc] at hc'
  · rw [hissued]
    refine List.rel_append (h.returned.imp fun _ _ hr => ?_) (.cons hlast .nil)
    rw [calls_append]
    exact hr.append _
  · intro r id hid
    rw [attachedIds_append] at hid
    obtain ⟨i, hi, hreturned⟩ := h.attached r id (by simpa [attachedIds] using hid)
    refine ⟨i, List.mem_append_left _ hi, ?_⟩
    exact (List.getElem?_append_left (List.getElem?_eq_some_iff.mp hreturned).1).trans hreturned

/-- A call that adds no blob. -/
theorem Refines.other {ops : List (ClientOp env)} {s : Client} {wops : List (Op env)}
    (h : Refines ops s wops) {op : ClientOp env} {wop : Op env} {w : WriterV2}
    (hstep : step s.writer wop = some (w, [])) (hissued : V2.issued [op] = [])
    (hcalls : V2.calls [wop] = [])
    (hattached : ∀ r, ∀ id ∈ attachedIds [wop] r, ∃ i, op = .attach r i ∧ s.returned[i]? = some id) :
    Refines (ops ++ [op]) ⟨w, s.log, s.returned⟩ (wops ++ [wop]) := by
  have hissued' : V2.issued (ops ++ [op]) = V2.issued ops := by
    rw [issued_append, hissued, List.append_nil]
  have hcalls' : V2.calls (wops ++ [wop]) = V2.calls wops := by
    rw [calls_append, hcalls, List.append_nil]
  have hrun := run_concat h.run hstep
  rw [List.append_nil] at hrun
  refine ⟨hrun, hissued' ▸ hcalls' ▸ h.calls, hissued' ▸ hcalls' ▸ h.issued,
    hissued' ▸ hcalls' ▸ h.returned, fun r id hid => ?_⟩
  rw [attachedIds_append] at hid
  rcases List.mem_append.mp hid with hid | hid
  · obtain ⟨i, hi, hreturned⟩ := h.attached r id hid
    exact ⟨i, List.mem_append_left _ hi, hreturned⟩
  · obtain ⟨i, rfl, hreturned⟩ := hattached r id hid
    exact ⟨i, List.mem_append_right _ (List.mem_singleton_self _), hreturned⟩

/-- A client's attachment is one of the writer. -/
theorem Refines.attach {ops : List (ClientOp env)} {s : Client} {wops : List (Op env)}
    (h : Refines ops s wops) {r i id : ℕ} {w : WriterV2} (hi : s.returned[i]? = some id)
    (hadd : addBlobToRecord s.writer r id = some w) :
    Refines (ops ++ [.attach r i]) ⟨w, s.log, s.returned⟩ (wops ++ [.addBlobToRecord r id]) := by
  have hstep : step s.writer (.addBlobToRecord r id : Op env) = some (w, []) := by
    rw [step, hadd]
    rfl
  refine h.other hstep rfl rfl fun r' id' hid => ?_
  by_cases hr : r = r'
  · have hid' : id' = id := by simpa [attachedIds, hr] using hid
    rw [← hr, hid']
    exact ⟨i, rfl, hi⟩
  · simp [attachedIds, hr] at hid

/-- **A client's run is a run of the writer.** -/
theorem refines_of_run {ops : List (ClientOp env)} {s : Client}
    (hrun : runActions clientStep clientNew ops = some s) : ∃ wops, Refines ops s wops := by
  refine runActions_rule (P := fun ops s => ∃ wops, Refines ops s wops) ?_ ?_ hrun
  · exact ⟨[], rfl, List.forall_mem_nil _, List.forall_mem_nil _, .nil, fun _ _ h => by cases h⟩
  · rintro ops s op s' ⟨wops, h⟩ hstep
    cases op with
    | addBlob c =>
        cases hstep
        exact ⟨_, h.addBlob c⟩
    | addRecord hexName =>
        cases hstep
        exact ⟨wops ++ [.addRecord hexName],
          h.other rfl rfl rfl fun _ _ hid => absurd hid List.not_mem_nil⟩
    | attach r i =>
        obtain ⟨id, hi, hstep⟩ := Option.bind_eq_some_iff.mp hstep
        obtain ⟨w, hadd, hstep⟩ := Option.bind_eq_some_iff.mp hstep
        cases hstep
        exact ⟨_, h.attach hi hadd⟩

/-! ## What the ids denote -/

/-- The blob table entry at `pos` leads to the header of the blob that the call `c` has added as `id`. -/
def LeadsTo (f : Bytes) (w : WriterV2) (c : AddBlob env) (id pos : ℕ) : Prop :=
  ∃ b, w.blobs[id]? = some b ∧ Carries c b ∧
    Holds f pos (⟨w.ctxOffset + id * Blob.sizeof⟩ : RecordBlobTableEntry).toBytes ∧
    Holds f (w.ctxOffset + id * Blob.sizeof) b.sblob.toBytes

/-- The record `e`, which is number `r`, is in the record table, and every entry of its blob table leads
to the blob of an accepted call whose own value has been attached to the record. -/
def TableIdentifies (f : Bytes) (ops : List (ClientOp env)) (s : Client) (r : ℕ) (e : RecordEntry) :
    Prop :=
  ∃ k e', (finishedRecords s.writer)[k]? = some e' ∧ e'.rawName = e.rawName ∧
    e'.blobs.length = e.blobs.length ∧
    Holds f (recordsStart s.writer + k * Record.sizeof) e'.srecord.toBytes ∧
    ∀ j < e'.blobs.length, ∃ (i : ℕ) (c : AddBlob env) (id : ℕ),
      ClientOp.attach r i ∈ ops ∧ (issued ops)[i]? = some c ∧ c.Accepted ∧
      s.returned[i]? = some id ∧
      LeadsTo f s.writer c id (e'.blobTableStart + j * RecordBlobTableEntry.sizeof)

/-- Ids identify their blobs, in the shard that is finished on top of the file `prev`. -/
structure IdsIdentify (prev : Bytes) (ops : List (ClientOp env)) (s : Client) : Prop where
  /-- The value of a rejected call denotes no blob. -/
  rejected : ∀ (i : ℕ) (c : AddBlob env) (id : ℕ), (issued ops)[i]? = some c → ¬ c.Accepted →
    s.returned[i]? = some id → s.writer.blobs[id]? = none
  /-- The blob tables have what has been attached. -/
  tables : ∀ r e, s.writer.records[r]? = some e →
    TableIdentifies (applyWrites prev (s.log ++ finish s.writer)) ops s r e

/-- The tables are right if only values of accepted calls have been attached. -/
theorem Refines.tables {ops : List (ClientOp env)} {s : Client} {wops : List (Op env)}
    (h : Refines ops s wops) (prev : Bytes)
    (hattached : ∀ r, ∀ id ∈ attachedIds wops r, ∃ (i : ℕ) (c : AddBlob env),
      ClientOp.attach r i ∈ ops ∧ (V2.issued ops)[i]? = some c ∧ c.Accepted ∧
      s.returned[i]? = some id) {r : ℕ} {e : RecordEntry} (he : s.writer.records[r]? = some e) :
    TableIdentifies (applyWrites prev (s.log ++ finish s.writer)) ops s r e := by
  have hw := history_of_run h.run
  have hlaid := (laidOut_finish (applyWrites prev s.log) hw.header_le).1
  rw [← applyWrites_append] at hlaid
  -- the record in the order of the table
  obtain ⟨k, hk⟩ := List.mem_iff_getElem?.mp
    ((List.mem_insertionSort rawNameLe).mpr (List.mem_of_getElem? he))
  obtain ⟨e', he', ht⟩ := exists_getElem?_of_forall₂ hlaid.tables hk
  refine ⟨k, e', he', ht.rawName, ?_, hlaid.holds_record he', fun j hj => ?_⟩
  · rw [ht.blobs, List.length_insertionSort]
  -- its entries are the ids that have been attached
  have hids : e.blobs = attachedIds wops r := by
    have hrec := (records_of_run h.run).records
    rw [hrec, List.getElem?_mapIdx, Option.map_eq_some_iff] at he
    obtain ⟨hexName, -, rfl⟩ := he
    rfl
  rw [ht.blobs] at hj
  have hid := List.getElem?_eq_getElem hj
  generalize (e.blobs.insertionSort (blobNameLe (finishedBlobs s.writer)))[j] = id at hid
  have hmem : id ∈ attachedIds wops r := by
    rw [← hids]
    exact (List.mem_insertionSort _).mp (List.mem_of_getElem? hid)
  obtain ⟨i, c, hi, hc, hacc, hreturned⟩ := hattached r id hmem
  -- and the id is that of the blob of its call
  obtain ⟨id', hid', hfor⟩ := exists_getElem?_of_forall₂ h.returned hc
  obtain rfl := Option.some.inj (hreturned.symm.trans hid')
  rw [ReturnedFor, if_pos hacc] at hfor
  obtain ⟨b, hb, hcarries⟩ := exists_getElem?_of_forall₂ hw.carries hfor
  exact ⟨i, c, id, hi, hc, hacc, hreturned, b, hb, hcarries, Filed.holds_entry ht hid hb,
    hlaid.holds_header hb⟩

/-- **When ids identify their blobs.** In every run of a client that passes on what `add_blob` has
returned, if and only if no call was rejected, or all were. -/
theorem idsIdentify_iff (prev : Bytes) {ops : List (ClientOp env)} {s : Client}
    (hrun : runActions clientStep clientNew ops = some s) :
    IdsIdentify prev ops s ↔ (∀ c ∈ issued ops, c.Accepted) ∨ ∀ c ∈ issued ops, ¬ c.Accepted := by
  obtain ⟨wops, h⟩ := refines_of_run hrun
  have hw := history_of_run h.run
  constructor
  · intro hid
    by_contra hc
    push Not at hc
    obtain ⟨⟨c, hc, hrej⟩, c', hc', hacc⟩ := hc
    -- the rejected call has returned 0, which is the id of the first blob
    obtain ⟨i, hi⟩ := List.mem_iff_getElem?.mp hc
    obtain ⟨id, hreturned, hfor⟩ := exists_getElem?_of_forall₂ h.returned hi
    rw [ReturnedFor, if_neg hrej] at hfor
    have hnone := hid.rejected i c id hi hrej hreturned
    have hlen := List.length_pos_of_mem (h.calls c' hc' hacc)
    rw [hfor, List.getElem?_eq_none_iff, hw.length_blobs] at hnone
    omega
  · rintro (hall | hnone)
    · refine ⟨fun i c id hi hrej _ => absurd (hall c (List.mem_of_getElem? hi)) hrej,
        fun r e he => h.tables prev (fun r id hid => ?_) he⟩
      obtain ⟨i, hi, hreturned⟩ := h.attached r id hid
      have hlt := (List.getElem?_eq_some_iff.mp hreturned).1
      rw [← h.returned.length_eq] at hlt
      have hc := List.getElem?_eq_getElem hlt
      exact ⟨i, _, hi, hc, hall _ (List.mem_of_getElem? hc), hreturned⟩
    · have hcalls : calls wops = [] := List.eq_nil_iff_forall_not_mem.mpr fun c hc =>
        hnone c (h.issued c hc) (accepted_of_mem_calls hc)
      have hblobs : s.writer.blobs = [] := by
        rw [← List.length_eq_zero_iff, hw.length_blobs, hcalls, List.length_nil]
      refine ⟨fun i c id _ _ _ => by rw [hblobs]; rfl,
        fun r e he => h.tables prev (fun r id hid => ?_) he⟩
      have hlt := ((records_of_run h.run).attached r id hid).2
      rw [hblobs] at hlt
      exact absurd hlt (Nat.not_lt_zero _)

/-- The byte 1 under a name of 256 characters. -/
def longCall : AddBlob smallEnv :=
  { dataCall with
    name := ⟨List.replicate 256 120, fun h =>
      absurd (List.eq_of_mem_replicate h) (by decide)⟩ }

/-- The name of the call is too long. -/
theorem not_accepted_longCall : ¬ longCall.Accepted := by
  have hlen : longCall.name.length = 256 := List.length_replicate
  have hlt : ¬ 256 ≤ maxNameSize := by decide
  exact fun h => hlt (hlen ▸ h.1)

/-- A blob that is accepted and attached. -/
theorem idsIdentify_iff_dataCall : ∃ s, runActions clientStep clientNew
    [.addBlob dataCall, .addRecord lastName, .attach 0 0] = some s ∧
      IdsIdentify [] [.addBlob dataCall, .addRecord lastName, .attach 0 0] s := by
  have hsome : (runActions clientStep clientNew
      [.addBlob dataCall, .addRecord lastName, .attach 0 0]).isSome = true := by decide +kernel
  obtain ⟨s, hrun⟩ := Option.isSome_iff_exists.mp hsome
  exact ⟨s, hrun, (idsIdentify_iff [] hrun).mpr (Or.inl (by decide))⟩

/-- The value of the call that is turned away is the id of the blob before it, and a record to which it
is attached gets that blob. -/
theorem not_idsIdentify : ∃ s, runActions clientStep clientNew
    [.addBlob dataCall, .addRecord lastName, .addBlob longCall, .attach 0 1] = some s ∧
      s.returned = [0, 0] ∧ s.writer.records.map (·.blobs) = [[0]] ∧
      ¬ IdsIdentify []
        [.addBlob dataCall, .addRecord lastName, .addBlob longCall, .attach 0 1] s := by
  have hsome : ((runActions clientStep clientNew
      [.addBlob dataCall, .addRecord lastName, .addBlob longCall, .attach 0 1]).map fun s =>
        decide (s.returned = [0, 0] ∧ s.writer.records.map (·.blobs) = [[0]] ∧
          s.writer.blobs.length = 1)) = some true := by
    decide +kernel
  obtain ⟨s, hrun, hs⟩ := Option.map_eq_some_iff.mp hsome
  obtain ⟨hreturned, hblobs, hlen⟩ := of_decide_eq_true hs
  refine ⟨s, hrun, hreturned, hblobs, fun h => ?_⟩
  have hnone := h.rejected 1 longCall 0 rfl not_accepted_longCall (by rw [hreturned]; rfl)
  rw [List.getElem?_eq_none_iff] at hnone
  omega

end EosShard.V2
