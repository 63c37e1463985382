import EosShard.V2.Concurrent
import EosShard.V2.RoundTrip

/-!
# Archives written by many threads

Threads add blobs and records to one writer, in any interleaving of their steps; when all have
returned, one thread attaches the blobs to the records and finishes. `add_record` is one locked
step, and `add_blob` the steps of `threadStep`.

* The records are not seen by `add_blob`: without them, `callerStep` is `threadStep`
  (`reaches_blobs`), so that what holds of concurrent `add_blob` calls holds here.
* An id is a ticket: every entry of either array belongs to one call (`blobTickets`,
  `recordTickets`). The calls in the order of their ids make a sequential run.
* `concurrent_reads_back`: the shard reads back as the archive of that run. It need not be the same
  file, as the strings may have come into the pool in another order.
-/

namespace EosShard.V2

open EosShard.Found

variable {env : Env}

/-! ## The callers -/

/-- What a thread is asked to do. -/
inductive Request (env : Env)
  | addBlob (c : AddBlob env)
  | addRecord (hexName : CString)

/-- A thread with its request: how far `add_blob` has come, or what `add_record` has returned. -/
inductive Caller (env : Env)
  | blob (t : Thread env)
  | record (hexName : CString) (id : Option ℕ)

namespace Caller

/-- The `add_blob` call. -/
def blob? : Caller env → Option (Thread env)
  | blob t => some t
  | record _ _ => none

/-- What the call has returned. -/
def result : Caller env → Option ℕ
  | blob t => t.phase.result
  | record _ id => id

/-- The `add_record` call: its name, and the id if it has returned. -/
def record? : Caller env → Option (CString × Option ℕ)
  | blob _ => none
  | record hexName id => some (hexName, id)

/-- The index that an `add_blob` call has been given. -/
def blobTicket (t : Caller env) : Option ℕ := t.blob?.bind fun t => t.phase.index

/-- The index that an `add_record` call has been given. -/
def recordTicket (t : Caller env) : Option ℕ := t.record?.bind Prod.snd

/-- What the thread was asked to do. -/
def request : Caller env → Request env
  | blob t => .addBlob t.call
  | record hexName _ => .addRecord hexName

end Caller

/-- The next atomic step of a call. Source: `eos-shard-writer-v2.c`,
`eos_shard_writer_v2_add_blob` and `eos_shard_writer_v2_add_record`. -/
def callerStep (s : Shared) : Caller env → Option (Shared × Caller env)
  | .blob t => (threadStep s t).map fun p => (p.1, .blob p.2)
  | .record hexName none =>
      let (w, id) := addRecord s.writer hexName
      some (⟨w, s.file⟩, .record hexName (some id))
  | .record _ (some _) => none

/-- **What a step of a caller can do.** -/
theorem callerStep_cases {s s' : Shared} {t t' : Caller env} (h : callerStep s t = some (s', t')) :
    (∃ u u', t = .blob u ∧ t' = .blob u' ∧ threadStep s u = some (s', u')) ∨
      ∃ hexName, t = .record hexName none ∧
        t' = .record hexName (some s.writer.records.length) ∧
        s' = ⟨(addRecord s.writer hexName).1, s.file⟩ := by
  cases t with
  | blob u =>
      obtain ⟨⟨s₁, u'⟩, hst, he⟩ := Option.map_eq_some_iff.mp h
      obtain ⟨rfl, rfl⟩ := Prod.mk.inj he
      exact Or.inl ⟨u, u', rfl, rfl, hst⟩
  | record hexName id =>
      cases id with
      | some id => cases h
      | none =>
          obtain ⟨rfl, rfl⟩ := Prod.mk.inj (Option.some.inj h)
          exact Or.inr ⟨hexName, rfl, by simp, rfl⟩

/-- A call that has not begun. -/
def Request.caller : Request env → Caller env
  | .addBlob c => .blob ⟨c, .start⟩
  | .addRecord hexName => .record hexName none

/-- A new writer on a file, and the requests. -/
def requested (prev : Bytes) (rs : List (Request env)) : Config Shared (Caller env) :=
  ⟨⟨writerV2New, prev⟩, rs.map Request.caller⟩

/-- The `add_blob` calls among the requests. -/
def blobRequests (rs : List (Request env)) : List (AddBlob env) :=
  rs.filterMap fun
    | .addBlob c => some c
    | .addRecord _ => none

/-- The names of the records among the requests. -/
def recordRequests (rs : List (Request env)) : List CString :=
  rs.filterMap fun
    | .addBlob _ => none
    | .addRecord hexName => some hexName

/-! ## Without the records -/

/-- The shared state as `add_blob` sees it. -/
def Shared.withoutRecords (s : Shared) : Shared := ⟨{ s.writer with records := [] }, s.file⟩

/-- `add_blob` neither reads nor changes the records. -/
theorem threadStep_withoutRecords (s : Shared) (t : Thread env) :
    threadStep s.withoutRecords t = (threadStep s t).map fun p => (p.1.withoutRecords, p.2) := by
  obtain ⟨c, ph⟩ := t
  cases ph with
  | start =>
      by_cases hc : c.Accepted
      · simp only [threadStep, hc, if_true]
        rfl
      · simp only [threadStep, hc, if_false]
        rfl
  | pooled no co =>
      have hlook : lookupDataStart s.withoutRecords.writer c.csum =
        lookupDataStart s.writer c.csum := rfl
      by_cases hz : lookupDataStart s.writer c.csum = 0
      · simp only [threadStep, reserveSection, hlook, hz, if_true]
        rfl
      · simp only [threadStep, reserveSection, hlook, hz, if_false]
        rfl
  | turnedAway => rfl
  | writing => rfl
  | assigning => rfl
  | returned => rfl

/-- A thread stays with its call. -/
theorem call_threadStep {s s' : Shared} {t t' : Thread env} (h : threadStep s t = some (s', t')) :
    t'.call = t.call := by
  obtain ⟨c, ph⟩ := t
  cases ph with
  | start =>
      simp only [threadStep] at h
      split_ifs at h <;> cases h <;> rfl
  | turnedAway => cases h
  | pooled =>
      cases h
      rfl
  | writing =>
      cases h
      rfl
  | assigning =>
      cases h
      rfl
  | returned => cases h

/-- A thread that adds a blob does not touch the records. -/
theorem records_threadStep {s s' : Shared} {t t' : Thread env}
    (h : threadStep s t = some (s', t')) : s'.writer.records = s.writer.records := by
  obtain ⟨c, ph⟩ := t
  cases ph with
  | start =>
      simp only [threadStep] at h
      split_ifs at h <;> cases h <;> rfl
  | pooled no co =>
      simp only [threadStep, reserveSection] at h
      split_ifs at h <;> cases h <;> rfl
  | turnedAway => cases h
  | writing =>
      cases h
      rfl
  | assigning =>
      cases h
      rfl
  | returned => cases h

/-- **The `add_blob` calls among other calls** are concurrent `add_blob` calls. -/
theorem reaches_blobs {prev : Bytes} {rs : List (Request env)} {c : Config Shared (Caller env)}
    (h : Reaches callerStep (requested prev rs) c) :
    Reaches threadStep (beginning prev (blobRequests rs))
      ⟨c.shared.withoutRecords, c.threads.filterMap Caller.blob?⟩ := by
  have key := h.filterMap threadStep Shared.withoutRecords Caller.blob? ?_
  · have hthreads : (requested prev rs).threads.filterMap Caller.blob? =
        (blobRequests rs).map fun c => ⟨c, .start⟩ := by
      simp only [requested, blobRequests, List.filterMap_map, List.map_filterMap]
      congr 1
      funext r
      cases r <;> rfl
    rw [hthreads] at key
    exact key
  · intro s t s' t' hst
    rcases callerStep_cases hst with ⟨u, u', rfl, rfl, hu⟩ | ⟨hexName, rfl, rfl, rfl⟩
    · refine Or.inl ⟨u, u', rfl, rfl, ?_⟩
      rw [threadStep_withoutRecords, hu]
      rfl
    · exact Or.inr ⟨rfl, rfl, rfl⟩

/-! ## Ids are tickets -/

/-- A step of a thread reserves the next index for it, or leaves all of them alone. -/
theorem index_threadStep {s s' : Shared} {t t' : Thread env} (h : threadStep s t = some (s', t')) :
    (t'.phase.index = t.phase.index ∧ s'.writer.blobs.length = s.writer.blobs.length) ∨
      (t.phase.index = none ∧ t'.phase.index = some s.writer.blobs.length ∧
        s'.writer.blobs.length = s.writer.blobs.length + 1) := by
  obtain ⟨c, ph⟩ := t
  cases ph with
  | start =>
      simp only [threadStep] at h
      split_ifs at h <;> cases h <;> exact Or.inl ⟨rfl, rfl⟩
  | pooled no co =>
      right
      by_cases hnew : IsNew s.writer c
      · simp only [threadStep, reserveSection_of_isNew hnew] at h
        cases h
        exact ⟨rfl, Phase.index_copying _ _ _ _, by simp⟩
      · simp only [threadStep, reserveSection_of_not_isNew hnew] at h
        cases h
        exact ⟨rfl, rfl, by simp⟩
  | turnedAway => cases h
  | writing k d o p ps =>
      cases h
      exact Or.inl ⟨Phase.index_copying _ _ _ _, rfl⟩
  | assigning k d =>
      cases h
      exact Or.inl ⟨rfl, by simp [assignSection]⟩
  | returned => cases h

/-- At the beginning no caller has got anything. -/
theorem filterMap_requested {α : Type} {g : Caller env → Option α} (h : ∀ r : Request env,
    g r.caller = none) (prev : Bytes) (rs : List (Request env)) :
    (requested prev rs).threads.filterMap g = [] := by
  rw [List.filterMap_eq_nil_iff]
  intro t ht
  obtain ⟨r, -, rfl⟩ := List.mem_map.mp ht
  exact h r

/-- Every blob entry belongs to one call. -/
theorem blobTickets {prev : Bytes} {rs : List (Request env)} {c : Config Shared (Caller env)}
    (h : Reaches callerStep (requested prev rs) c) :
    (c.threads.filterMap Caller.blobTicket).Perm (List.range c.shared.writer.blobs.length) := by
  refine h.tickets Caller.blobTicket (fun s => s.writer.blobs.length) (fun s t s' t' hst => ?_) ?_
  · rcases callerStep_cases hst with ⟨u, u', rfl, rfl, hu⟩ | ⟨hexName, rfl, rfl, rfl⟩
    · exact index_threadStep hu
    · exact Or.inl ⟨rfl, rfl⟩
  · rw [filterMap_requested (fun r => by cases r <;> rfl)]
    rfl

/-- Every record entry belongs to one call. -/
theorem recordTickets {prev : Bytes} {rs : List (Request env)} {c : Config Shared (Caller env)}
    (h : Reaches callerStep (requested prev rs) c) :
    (c.threads.filterMap Caller.recordTicket).Perm
      (List.range c.shared.writer.records.length) := by
  refine h.tickets Caller.recordTicket (fun s => s.writer.records.length) (fun s t s' t' hst => ?_) ?_
  · rcases callerStep_cases hst with ⟨u, u', rfl, rfl, hu⟩ | ⟨hexName, rfl, rfl, rfl⟩
    · exact Or.inl ⟨rfl, by rw [records_threadStep hu]⟩
    · exact Or.inr ⟨rfl, rfl, by simp [addRecord]⟩
  · rw [filterMap_requested (fun r => by cases r <;> rfl)]
    rfl

/-- Every thread keeps its request. -/
theorem map_request {prev : Bytes} {rs : List (Request env)} {c : Config Shared (Caller env)}
    (h : Reaches callerStep (requested prev rs) c) : c.threads.map Caller.request = rs := by
  have key := h.map_eq Caller.request fun s t s' t' hst => by
    rcases callerStep_cases hst with ⟨u, u', rfl, rfl, hu⟩ | ⟨hexName, rfl, rfl, rfl⟩
    · exact congrArg Request.addBlob (call_threadStep hu)
    · rfl
  rw [key, requested, List.map_map]
  apply (List.map_congr_left fun r _ => ?_).trans (List.map_id rs)
  cases r <;> rfl

/-- The entry of a record that has been added. -/
theorem recordEntries {prev : Bytes} {rs : List (Request env)} {c : Config Shared (Caller env)}
    (h : Reaches callerStep (requested prev rs) c) : ∀ hexName k,
      .record hexName (some k) ∈ c.threads →
        c.shared.writer.records[k]? = some ⟨rawNameOf hexName, [], 0⟩ := by
  refine Reaches.rule (S := fun _ => True) (P := fun c => ∀ hexName k,
    .record hexName (some k) ∈ c.threads →
      c.shared.writer.records[k]? = some ⟨rawNameOf hexName, [], 0⟩)
    (fun _ _ _ _ _ _ => trivial) ?_ ?_ h trivial
  · intro c i t s' t' ih _ ht hst hexName k hmem
    rcases callerStep_cases hst with ⟨u, u', rfl, rfl, hu⟩ | ⟨hexName', rfl, rfl, rfl⟩
    · rw [records_threadStep hu]
      rcases List.mem_or_eq_of_mem_set hmem with hmem | he
      · exact ih hexName k hmem
      · cases he
    · rcases List.mem_or_eq_of_mem_set hmem with hmem | he
      · exact getElem?_append_of_some (ih hexName k hmem) _
      · cases he
        exact List.getElem?_concat_length
  · intro hexName k hmem
    obtain ⟨r, -, hr⟩ := List.mem_map.mp hmem
    cases r <;> cases hr

/-! ## The sequential run -/

/-- Attachments of blobs to records, by their ids. -/
def linkOps (env : Env) (links : List (ℕ × ℕ)) : List (Op env) :=
  links.map fun l => .addBlobToRecord l.1 l.2

/-- The calls of one thread after the other, in the order of their ids, and then the attachments. -/
def archiveOps (cs : List (AddBlob env)) (names : List CString) (links : List (ℕ × ℕ)) :
    List (Op env) :=
  cs.map .addBlob ++ names.map .addRecord ++ linkOps env links

/-- Accepted calls of `add_blob`, one after the other. -/
theorem calls_map_addBlob {cs : List (AddBlob env)} (h : ∀ c ∈ cs, c.Accepted) :
    calls (cs.map Op.addBlob) = cs := by
  induction cs with
  | nil => rfl
  | cons c cs ih =>
      obtain ⟨hc, hcs⟩ := List.forall_mem_cons.mp h
      have hcons := calls_append [Op.addBlob c] (cs.map Op.addBlob)
      rw [calls_addBlob hc, ih hcs] at hcons
      exact hcons

/-- Calls of `add_record` add no blobs. -/
theorem calls_map_addRecord (names : List CString) :
    calls (names.map Op.addRecord : List (Op env)) = [] := by
  simp [calls]

/-- Attachments add no blobs. -/
theorem calls_linkOps (links : List (ℕ × ℕ)) : calls (linkOps env links) = [] := by
  induction links with
  | nil => rfl
  | cons l links ih => exact ih

/-- The run that stands for the callers has their accepted calls. -/
theorem calls_archiveOps {cs : List (AddBlob env)} (h : ∀ c ∈ cs, c.Accepted)
    (names : List CString) (links : List (ℕ × ℕ)) : calls (archiveOps cs names links) = cs := by
  simp [archiveOps, calls_append, calls_map_addBlob h, calls_map_addRecord, calls_linkOps]

/-- The run that stands for the callers has their records. -/
theorem recordNames_archiveOps (cs : List (AddBlob env)) (names : List CString)
    (links : List (ℕ × ℕ)) : recordNames (archiveOps cs names links) = names := by
  simp [archiveOps, linkOps, recordNames, List.filterMap_append, List.filterMap_map]

/-- The run that stands for the callers has their attachments. -/
theorem attachedIds_archiveOps (cs : List (AddBlob env)) (names : List CString)
    (links : List (ℕ × ℕ)) (r : ℕ) :
    attachedIds (archiveOps cs names links) r = attachedIds (linkOps env links) r := by
  simp [archiveOps, attachedIds, List.filterMap_append, List.filterMap_map]

/-- A run can go on with a call whose ids have been given out. -/
theorem exists_run_concat {ops : List (Op env)} {op : Op env}
    (h : ∃ w log, run writerV2New ops = some (w, log))
    (hop : ∀ r i, op = .addBlobToRecord r i → r < (recordNames ops).length ∧ i < (calls ops).length) :
    ∃ w log, run writerV2New (ops ++ [op]) = some (w, log) := by
  obtain ⟨w, log, hrun⟩ := h
  have hblobs := (history_of_run hrun).length_blobs
  have hrecords : w.records.length = (recordNames ops).length := by
    rw [(records_of_run hrun).records, List.length_mapIdx]
  cases op with
  | addBlob c => exact ⟨_, _, run_concat hrun rfl⟩
  | addRecord hexName => exact ⟨_, _, run_concat hrun rfl⟩
  | addBlobToRecord r i =>
      obtain ⟨hr, hi⟩ := hop r i rfl
      rw [← hrecords] at hr
      rw [← hblobs] at hi
      exact ⟨_, _, run_concat hrun (by rw [step, addBlobToRecord, if_pos ⟨hr, hi⟩]; rfl)⟩

/-- The calls in the order of their ids are a run. -/
theorem exists_run_archiveOps {cs : List (AddBlob env)} (hcs : ∀ c ∈ cs, c.Accepted)
    (names : List CString) {links : List (ℕ × ℕ)}
    (hlinks : ∀ l ∈ links, l.1 < names.length ∧ l.2 < cs.length) :
    ∃ w log, run writerV2New (archiveOps cs names links) = some (w, log) := by
  have hblobs : ∃ w log, run writerV2New (cs.map Op.addBlob) = some (w, log) := by
    clear hcs hlinks
    induction cs using List.reverseRecOn with
    | nil => exact ⟨_, _, rfl⟩
    | append_singleton cs c ih =>
        rw [List.map_append]
        exact exists_run_concat ih fun r i h => by cases h
  have hrecords : ∃ w log,
      run writerV2New (cs.map Op.addBlob ++ names.map Op.addRecord) = some (w, log) := by
    clear hlinks
    induction names using List.reverseRecOn with
    | nil => rwa [List.map_nil, List.append_nil]
    | append_singleton names name ih =>
        rw [List.map_append, ← List.append_assoc]
        exact exists_run_concat ih fun r i h => by cases h
  induction links using List.reverseRecOn with
  | nil => simpa [archiveOps, linkOps] using hrecords
  | append_singleton links l ih =>
      obtain ⟨hlinks, hl⟩ := List.forall_mem_append.mp hlinks
      have hrun := ih hlinks
      have hsplit : archiveOps cs names (links ++ [l]) =
          archiveOps cs names links ++ [.addBlobToRecord l.1 l.2] := by
        simp [archiveOps, linkOps]
      rw [hsplit]
      apply exists_run_concat hrun
      intro r i hop
      cases hop
      rw [recordNames_archiveOps, calls_archiveOps hcs]
      exact hl l (List.mem_singleton_self l)

/-! ## Reading back -/

/-- A returned call has the place in the order that its id says. -/
def Caller.Answered (cs : List (AddBlob env)) (names : List CString) : Caller env → Prop
  | .blob t =>
      if t.call.Accepted then ∃ id, t.phase.result = some id ∧ cs[id]? = some t.call
      else t.phase.result = some 0
  | .record hexName id => ∃ k, id = some k ∧ names[k]? = some hexName

/-- The entry of a returned call is complete, and ready to be finished. -/
theorem Coherent.entryReady {cs : List (AddBlob env)} {c : Config Shared (Thread env)}
    (h : Coherent cs c) (hcol : CollisionFree cs) (hdone : AllReturned c) {t : Thread env}
    (ht : t ∈ c.threads) {k : ℕ} (hk : t.phase.index = some k) :
    t.phase.result = some k ∧ t.call.Accepted ∧ ∃ b, c.shared.writer.blobs[k]? = some b ∧
      EntryOk c.shared t.call b ∧ t.call.name ∈ c.shared.writer.cpool.strings ∧
      t.call.type ∈ c.shared.writer.cpool.strings ∧
      b.sblob.dataStart + t.call.stored.length ≤ c.shared.writer.ctxOffset := by
  obtain ⟨i, hi⟩ := List.mem_iff_getElem?.mp ht
  rcases h.returned hi (hdone t ht) with ⟨hph, -⟩ | ⟨k', hph, hc, d, no, co, -, hstr, hb⟩
  · rw [hph] at hk
    cases hk
  · rw [hph] at hk
    obtain rfl : k' = k := Option.some.inj hk
    obtain ⟨b, hb', hok, htab⟩ := h.entry hcol hdone ht hc
    rw [entryOf, hph] at hb'
    have hle := (h.space.bounds _ _ htab).2
    rw [contentOf_csum hcol (h.call_mem hi)] at hle
    exact ⟨by rw [hph]; rfl, hc, b, hb', hok, hstr.name_mem, hstr.type_mem, hle⟩

/-- When all calls have returned, the accepted ones are those with an index. -/
theorem Coherent.filterMap_index {cs : List (AddBlob env)} {c : Config Shared (Thread env)}
    (h : Coherent cs c) (hdone : AllReturned c) :
    (c.threads.filterMap fun t => t.phase.index.map fun _ => t.call) =
      cs.filter fun c => c.Accepted := by
  rw [← h.calls, List.filter_map, ← List.filterMap_eq_map, List.filterMap_filter]
  apply List.filterMap_congr
  intro t ht
  obtain ⟨i, hi⟩ := List.mem_iff_getElem?.mp ht
  rcases h.returned hi (hdone t ht) with ⟨hph, hc⟩ | ⟨k, hph, hc, -⟩
  · simp [hph, hc, Phase.index]
  · simp [hph, hc, Phase.index]

/-- The state when all calls have returned: `cs` are the blobs and `names` the records, in the order
of their ids. -/
structure Joined (c : Config Shared (Caller env)) (cs : List (AddBlob env)) (names : List CString) :
    Prop where
  answered : ∀ t ∈ c.threads, t.Answered cs names
  accepted : ∀ b ∈ cs, b.Accepted
  length_blobs : c.shared.writer.blobs.length = cs.length
  header_le : Hdr.sizeof ≤ c.shared.writer.ctxOffset
  entries : ∀ (i : ℕ) (a : AddBlob env), cs[i]? = some a → ∃ b,
    c.shared.writer.blobs[i]? = some b ∧ EntryOk c.shared.withoutRecords a b ∧
      a.name ∈ c.shared.writer.cpool.strings ∧ a.type ∈ c.shared.writer.cpool.strings ∧
      b.sblob.dataStart + a.stored.length ≤ c.shared.writer.ctxOffset
  records : c.shared.writer.records = names.map fun hexName => ⟨rawNameOf hexName, [], 0⟩

/-- **All calls have an order**: each has its entry at its id, and no entry is left over. -/
theorem joined_of_reaches {prev : Bytes} {rs : List (Request env)} {c : Config Shared (Caller env)}
    (hrun : Reaches callerStep (requested prev rs) c) (hdone : ∀ t ∈ c.threads, t.result.isSome)
    (hsize : c.shared.writer.ctxOffset < 2 ^ 32) (hcol : CollisionFree (blobRequests rs)) :
    ∃ cs names, cs.Perm ((blobRequests rs).filter fun b => b.Accepted) ∧
      names.Perm (recordRequests rs) ∧ Joined c cs names := by
  have hco := coherent_of_reaches (reaches_blobs hrun) hcol hsize
  have hblobs : AllReturned (⟨c.shared.withoutRecords, c.threads.filterMap Caller.blob?⟩ :
      Config Shared (Thread env)) := by
    intro t ht
    obtain ⟨u, hu, he⟩ := List.mem_filterMap.mp ht
    cases u with
    | blob u =>
        cases he
        exact hdone _ hu
    | record => cases he
  have hblobTickets := blobTickets hrun
  have hrecordTickets := recordTickets hrun
  unfold Caller.blobTicket at hblobTickets
  unfold Caller.recordTicket at hrecordTickets
  rw [← List.filterMap_filterMap] at hblobTickets hrecordTickets
  obtain ⟨cs, hlen, hperm, hplace, hhas⟩ := exists_order _ Thread.call hblobTickets
  obtain ⟨names, hlen', hperm', hplace', hhas'⟩ := exists_order _ Prod.fst hrecordTickets
  rw [hco.filterMap_index hblobs] at hperm
  have hrecords : ∀ p ∈ c.threads.filterMap Caller.record?, ∃ k, p.2 = some k ∧
      .record p.1 (some k) ∈ c.threads := by
    intro p hp
    obtain ⟨t, ht, he⟩ := List.mem_filterMap.mp hp
    cases t with
    | blob u => cases he
    | record hexName id =>
        cases he
        obtain ⟨k, rfl⟩ := Option.isSome_iff_exists.mp (hdone _ ht)
        exact ⟨k, rfl, ht⟩
  refine ⟨cs, names, hperm, hperm'.trans (List.Perm.of_eq ?_), ⟨?_, ?_, hlen.symm, ?_, ?_, ?_⟩⟩
  · -- all records have returned
    rw [← map_request hrun, recordRequests, List.filterMap_map, List.filterMap_filterMap]
    apply List.filterMap_congr
    intro t ht
    cases t with
    | blob u => rfl
    | record hexName id =>
        obtain ⟨k, rfl⟩ := Option.isSome_iff_exists.mp (hdone _ ht)
        rfl
  · intro t ht
    cases t with
    | blob u =>
        have hu : u ∈ c.threads.filterMap Caller.blob? := List.mem_filterMap.mpr ⟨_, ht, rfl⟩
        obtain ⟨i, hi⟩ := List.mem_iff_getElem?.mp hu
        show if u.call.Accepted then _ else _
        rcases hco.returned hi (hblobs u hu) with ⟨hph, hc⟩ | ⟨k, hph, hc, -⟩
        · rw [if_neg hc, hph]
          rfl
        · rw [if_pos hc, hph]
          exact ⟨k, rfl, hplace u hu k (by rw [hph]; rfl)⟩
    | record hexName id =>
        obtain ⟨k, rfl⟩ := Option.isSome_iff_exists.mp (hdone _ ht)
        exact ⟨k, rfl, hplace' (hexName, some k) (List.mem_filterMap.mpr ⟨_, ht, rfl⟩) k rfl⟩
  · intro b hb
    exact of_decide_eq_true (List.mem_filter.mp (hperm.mem_iff.mp hb)).2
  · exact hco.space.header_le
  · intro i a ha
    obtain ⟨t, ht, hk⟩ := hhas i (hlen ▸ (List.getElem?_eq_some_iff.mp ha).1)
    have hcall := hplace t ht i hk
    rw [ha] at hcall
    cases hcall
    exact (hco.entryReady hcol hblobs ht hk).2.2
  · apply List.ext_getElem?
    intro i
    by_cases hi : i < c.shared.writer.records.length
    · obtain ⟨p, hp, hk⟩ := hhas' i hi
      obtain ⟨k, hk', hmem⟩ := hrecords p hp
      obtain rfl : k = i := Option.some.inj (hk'.symm.trans hk)
      rw [recordEntries hrun _ _ hmem, List.getElem?_map, hplace' p hp k hk]
      rfl
    · rw [List.getElem?_eq_none (not_lt.mp hi), List.getElem?_eq_none]
      rw [List.length_map, hlen']
      exact not_lt.mp hi

/-- Attaching and finishing leaves the file of the archive. -/
theorem Joined.written {c : Config Shared (Caller env)} {cs : List (AddBlob env)}
    {names : List CString} (h : Joined c cs names) {links : List (ℕ × ℕ)} {w : WriterV2}
    {log : List Write} (hlinks : run c.shared.writer (linkOps env links) = some (w, log))
    (hend : shardEnd w < 2 ^ 32) (hrec : names.length * Record.sizeof < 2 ^ 31)
    (hatt : ∀ r, (attachedIds (linkOps env links) r).length ≤ 255) :
    Written (applyWrites c.shared.file (finish w)) (archiveOps cs names links) w := by
  obtain ⟨-, hoff, hblobs, hpool⟩ := run_of_calls_eq_nil hlinks (calls_linkOps links)
  have hbase : RecordsOk (cs.map Op.addBlob ++ names.map Op.addRecord) c.shared.writer := by
    have hnil : ∀ r, attachedIds (cs.map Op.addBlob ++ names.map Op.addRecord) r = [] := by
      simp [attachedIds, List.filterMap_append, List.filterMap_map]
    constructor
    · have hnames : recordNames (cs.map Op.addBlob ++ names.map Op.addRecord) = names := by
        simp [recordNames, List.filterMap_append, List.filterMap_map]
      rw [h.records, hnames]
      apply List.ext_getElem?
      intro i
      rw [List.getElem?_map, List.getElem?_mapIdx]
      cases names[i]? with
      | none => rfl
      | some hexName => rw [Option.map_some, Option.map_some, archiveEntry, hnil]
    · intro r i hi
      rw [hnil] at hi
      cases hi
  have hrecords : RecordsOk (archiveOps cs names links) w := hbase.run hlinks
  obtain ⟨hlaid, hkeep⟩ := laidOut_finish c.shared.file (w := w) (hoff ▸ h.header_le)
  obtain ⟨h₁, h₂, -, h₃, h₄⟩ := regions_le w
  have hpoolLen : (poolBytes c.shared.writer.cpool.strings).length ≤ 2 ^ 32 := by
    unfold shardEnd at hend
    rw [← hpool]
    omega
  refine ⟨hlaid, ?_, ?_, hrecords, hend, ?_, fun r => ?_⟩
  · intro i a ha
    rw [calls_archiveOps h.accepted] at ha
    obtain ⟨b, hb, hok, hname, htype, hle⟩ := h.entries i a ha
    obtain ⟨hno, hco⟩ := hok.strings hpoolLen
    refine ⟨b, by rw [hblobs, hb], hok.carries, ?_, ?_, ?_, ?_, ?_, ?_⟩
    · rwa [hpool]
    · rwa [hpool]
    · rwa [hpool]
    · rwa [hpool]
    · rwa [hoff]
    · exact hkeep _ _ hok.header_le (by rwa [hoff]) hok.holds
  · rw [hblobs, h.length_blobs, calls_archiveOps h.accepted]
  · rwa [hrecords.records, List.length_mapIdx, recordNames_archiveOps]
  · rw [attachedIds_archiveOps]
    exact hatt r

/-- **What many threads write reads back.** Threads add blobs and records in any interleaving; when
all have returned, the blobs are attached to the records by the ids that were returned, and the
shard is finished. The calls then have an order, in which each has its id as its place; in that
order they are a run of one thread, and the shard reads back as the archive of that run. -/
theorem concurrent_reads_back {prev : Bytes} {rs : List (Request env)}
    {c : Config Shared (Caller env)} (hrun : Reaches callerStep (requested prev rs) c)
    (hdone : ∀ t ∈ c.threads, t.result.isSome) {links : List (ℕ × ℕ)} {w : WriterV2}
    {log : List Write} (hlinks : run c.shared.writer (linkOps env links) = some (w, log))
    (hend : shardEnd w < 2 ^ 32) (hrec : (recordRequests rs).length * Record.sizeof < 2 ^ 31)
    (hatt : ∀ r, (attachedIds (linkOps env links) r).length ≤ 255)
    (htype : ∀ b ∈ blobRequests rs, b.Accepted → b.type.length < maxContentTypeSize)
    (hcol : CollisionFree (blobRequests rs)) :
    ∃ cs names, cs.Perm ((blobRequests rs).filter fun b => b.Accepted) ∧
      names.Perm (recordRequests rs) ∧ (∀ t ∈ c.threads, t.Answered cs names) ∧
      (∃ w₁ log₁, run writerV2New (archiveOps cs names links) = some (w₁, log₁)) ∧
      ∃ impl, (∀ gv heap, detectVersion gv heap (applyWrites c.shared.file (finish w)) =
          .ok (.v2 impl)) ∧
        RoundTrip (applyWrites c.shared.file (finish w)) impl (archiveOps cs names links) := by
  obtain ⟨-, hoff, hblobs, -⟩ := run_of_calls_eq_nil hlinks (calls_linkOps links)
  have hsize : c.shared.writer.ctxOffset < 2 ^ 32 := by
    obtain ⟨h₁, h₂, -, h₃, h₄⟩ := regions_le w
    rw [← hoff]
    omega
  obtain ⟨cs, names, hcs, hnames, h⟩ := joined_of_reaches hrun hdone hsize hcol
  have hw := h.written hlinks hend (hnames.length_eq ▸ hrec) hatt
  refine ⟨cs, names, hcs, hnames, h.answered, ?_, _, hw.detectVersion, hw.roundTrip ?_⟩
  · apply exists_run_archiveOps h.accepted
    intro l hl
    have hmem : l.2 ∈ attachedIds (archiveOps cs names links) l.1 := by
      rw [attachedIds_archiveOps, attachedIds, linkOps, List.filterMap_map]
      exact List.mem_filterMap.mpr ⟨l, hl, by simp⟩
    obtain ⟨hr, hi⟩ := hw.records.attached l.1 l.2 hmem
    rw [hw.records.records, List.length_mapIdx, recordNames_archiveOps] at hr
    rw [hblobs, h.length_blobs] at hi
    exact ⟨hr, hi⟩
  · intro b hb
    rw [calls_archiveOps h.accepted] at hb
    have hmem := List.mem_filter.mp (hcs.mem_iff.mp hb)
    exact htype b hmem.1 (of_decide_eq_true hmem.2)

/-- Two blobs and a record, asked for by three threads. -/
def threeRequests : List (Request smallEnv) :=
  [.addBlob dataCall, .addBlob zippedCall, .addRecord digitsName]

/-- The first thread puts its strings into the pool, and is then overtaken by the other two. -/
def overtakenSchedule : List ℕ := [0, 1, 1, 2, 0, 1, 0, 0, 1]

/-- What the three have asked for reads back, the blobs in the order in which they got their ids. -/
theorem concurrent_reads_back_overtaken :
    ∃ c w log impl order, Reaches callerStep (requested [7] threeRequests) c ∧
      c.threads.map Caller.result = [some 1, some 0, some 0] ∧
      run c.shared.writer (linkOps smallEnv [(0, 1), (0, 0)]) = some (w, log) ∧
      order.Perm [dataCall, zippedCall] ∧
      RoundTrip (applyWrites c.shared.file (finish w)) impl
        (archiveOps order [digitsName] [(0, 1), (0, 0)]) := by
  have hfacts : (((requested [7] threeRequests).run callerStep overtakenSchedule).bind fun c =>
      (run c.shared.writer (linkOps smallEnv [(0, 1), (0, 0)])).map fun p =>
        (c.threads.map Caller.result, decide (shardEnd p.1 < 2 ^ 32))) =
      some ([some 1, some 0, some 0], true) := by decide +kernel
  obtain ⟨c, hc, hfacts⟩ := Option.bind_eq_some_iff.mp hfacts
  obtain ⟨⟨w, log⟩, hlinks, hfacts⟩ := Option.map_eq_some_iff.mp hfacts
  obtain ⟨hres, hend⟩ := Prod.mk.inj hfacts
  have hdone : ∀ t ∈ c.threads, t.result.isSome := by
    intro t ht
    have hmem := List.mem_map_of_mem (f := Caller.result) ht
    rw [hres] at hmem
    simp only [List.mem_cons, List.not_mem_nil, or_false, or_self] at hmem
    rcases hmem with h | h <;> rw [h] <;> rfl
  have hatt : ∀ r, (attachedIds (linkOps smallEnv [(0, 1), (0, 0)]) r).length ≤ 255 := fun r =>
    (List.length_filterMap_le _ _).trans (by decide)
  obtain ⟨order, names, horder, hnames, -, -, impl, -, hback⟩ :=
    concurrent_reads_back (.of_run hc) hdone hlinks (of_decide_eq_true hend) (by decide) hatt
      (by decide) (by unfold CollisionFree; decide +kernel)
  obtain rfl := List.perm_singleton.mp hnames
  exact ⟨c, w, log, impl, order, .of_run hc, hres, hlinks,
    horder.trans (List.Perm.of_eq (List.filter_eq_self.mpr (by decide +kernel))), hback⟩

end EosShard.V2
