import EosShard.Dictionary.Blocks

/-!
# The calls of the dictionary writer, statement by statement

`addEntryCall` and `finishCall` are the two functions of the writer over a state that every statement
changes in place: the fields of the writer, and the file behind its stream. A call that is left early
leaves the state as it is at that point.

* `run_addEntryCall`, `run_finishCall`: they do what `addEntry` and `finish` say. An error is set before
  anything has changed.
* `runCalls_eq`: so does a run of calls by a program that goes on after an error.
* `countsAndRejects_iff`: when exactly a run of calls counts its entries and rejects those out of order.
  A declared count of 0 is divided by.
-/

namespace EosShard.Dictionary

open EosShard.Found

/-! ## The statements -/

/-- The writer, and the file behind its stream. -/
structure Session where
  writer : DictionaryWriter
  file : Bytes

/-- A call, which may be left with a failure. -/
abbrev Call := EStateM Failure Session

/-- Change the fields of the writer. -/
def modifyWriter (g : DictionaryWriter → DictionaryWriter) : Call Unit :=
  modify fun s => { s with writer := g s.writer }

/-- `g_output_stream_write`: write at the position of the stream and move it. -/
def writeStream (d : Bytes) : Call Unit :=
  modify fun s =>
    { writer := { s.writer with tell := s.writer.tell + d.length },
      file := pwrite s.file d s.writer.tell }

/-- Write one piece behind the other. -/
def writeStreamAll : List Bytes → Call Unit
  | [] => pure ()
  | d :: ds => do
      writeStream d
      writeStreamAll ds

/-- A result inside a call. -/
def ofResult {α : Type} : Result α → Call α
  | .ok a => pure a
  | .error e => throw e

/-- Source: `eos-shard-dictionary-writer.c`, `eos_shard_dictionary_writer_add_entry`. -/
def addEntryCall (key value : CString) : Call Unit := do
  let self := (← get).writer
  match self.lastKey.filter fun lastKey => key < lastKey with
  | some lastKey => throw (outOfOrder key lastKey)
  | none => pure ()
  if self.blockLength = 0 then throw .abort
  if self.nEntriesAdded % self.blockLength = 0 then
    modifyWriter fun w => { w with offsets := w.offsets ++ [w.tell] }
  let bloomFilter ← ofResult (bloomFilterAdd self.bloomFilter key)
  modifyWriter fun w => { w with bloomFilter := bloomFilter }
  writeStream key.toBytes
  writeStream value.toBytes
  modifyWriter fun w => { w with nEntriesAdded := (w.nEntriesAdded + 1) % 2 ^ 32 }
  modifyWriter fun w => { w with lastKey := some key }

/-- The entry the loop of `finish` makes of two neighbouring offsets. -/
def blockAtOffsets (offsets : List ℕ) (i : ℕ) : DictionaryBlockTableEntry :=
  ⟨offsets.getD i 0, offsets.getD (i + 1) 0 - offsets.getD i 0⟩

/-- Source: `eos-shard-dictionary-writer.c`, `eos_shard_dictionary_writer_finish`. -/
def finishCall : Call Unit := do
  let self := (← get).writer
  if self.nEntriesAdded ≠ self.nEntriesTotal then
    throw (wrongNumberEntries self.nEntriesAdded self.nEntriesTotal)
  if self.offsets.length ≠ self.nBlocks then throw .abort
  modifyWriter fun w => { w with offsets := w.offsets ++ [w.tell] }
  let offsets := (← get).writer.offsets
  writeStream (le 2 self.nBlocks)
  writeStreamAll ((List.range self.nBlocks).map fun i => (blockAtOffsets offsets i).toBytes)
  let bloomFilterStart := (← get).writer.tell
  writeStreamAll (bloomFilterWriteToStream self.bloomFilter)
  modifyWriter fun w => { w with tell := 0 }
  writeStream (DictionaryHeader.toBytes ⟨magic, self.tell, bloomFilterStart⟩)

/-! ## What the calls do -/

/-- Pieces are written behind each other. -/
theorem run_writeStreamAll (ds : List Bytes) (s : Session) :
    (writeStreamAll ds).run s = .ok ()
      { writer := { s.writer with tell := s.writer.tell + ds.flatten.length },
        file := applyWrites s.file (seqWrites s.writer.tell ds) } := by
  induction ds generalizing s with
  | nil => rfl
  | cons d ds ih =>
      have hrest := ih
        { writer := { s.writer with tell := s.writer.tell + d.length },
          file := pwrite s.file d s.writer.tell }
      rw [List.flatten_cons, List.length_append, ← Nat.add_assoc]
      exact hrest

/-- To add to a filter fails only by ending the process. -/
theorem bloomFilterAdd_eq_error {self : BloomFilter} {key : CString} {e : Failure}
    (h : bloomFilterAdd self key = .error e) : e = .abort := by
  have hset : ∀ {nBuckets : ℕ} {hashes buckets : List ℕ},
      setBits nBuckets hashes buckets = .error e → e = .abort := by
    intro nBuckets hashes
    induction hashes with
    | nil => intro buckets h; cases h
    | cons x hashes ih =>
        intro buckets h
        rw [setBits] at h
        split_ifs at h
        · exact ih h
        · cases h
          rfl
  unfold bloomFilterAdd at h
  split_ifs at h
  rcases hbits : setBits self.header.nBuckets
      (computeHashes key self.header.nHashes self.header.nBits) self.buckets with e' | buckets
  · rw [hbits] at h
    cases h
    exact hset hbits
  · rw [hbits] at h
    cases h

/-- **A call of `add_entry`**: an error leaves the state as it was. -/
theorem run_addEntryCall (s : Session) (key value : CString) :
    match addEntry s.writer key value with
    | .ok (w, ws) => (addEntryCall key value).run s = .ok () ⟨w, applyWrites s.file ws⟩
    | .error (.gerror e) => (addEntryCall key value).run s = .error (.gerror e) s
    | .error .abort => ∃ s', (addEntryCall key value).run s = .error .abort s' := by
  have hget : ∀ g : Session → Call Unit, (get >>= g).run s = (g s).run s := fun g => rfl
  unfold addEntry addEntryCall
  rw [hget]
  rcases hlast : s.writer.lastKey.filter fun lastKey => key < lastKey with _ | lastKey
  · by_cases hl : s.writer.blockLength = 0
    · simp only [hlast, hl, if_true]
      exact ⟨s, rfl⟩
    · rcases hadd : bloomFilterAdd s.writer.bloomFilter key with e | bloomFilter
      · have he := bloomFilterAdd_eq_error hadd
        subst he
        by_cases hm : s.writer.nEntriesAdded % s.writer.blockLength = 0
        · simp only [hlast, hl, hm, hadd, if_true, if_false]
          exact ⟨_, rfl⟩
        · simp only [hlast, hl, hm, hadd, if_false]
          exact ⟨_, rfl⟩
      · by_cases hm : s.writer.nEntriesAdded % s.writer.blockLength = 0
        · simp only [hlast, hl, hm, hadd, if_true, if_false, Except.map, ← CString.length_toBytes]
          rfl
        · simp only [hlast, hl, hm, hadd, if_false, Except.map, ← CString.length_toBytes]
          rfl
  · simp only [hlast]
    rfl

/-- The table has a block for every pair of neighbouring offsets. -/
theorem blockTable_eq_map (offsets : List ℕ) :
    blockTable offsets = (List.range (offsets.length - 1)).map (blockAtOffsets offsets) := by
  induction offsets with
  | nil => rfl
  | cons o offsets ih =>
      cases offsets with
      | nil => rfl
      | cons o' offsets =>
          have hlen : (o :: o' :: offsets).length - 1 = (o' :: offsets).length - 1 + 1 := rfl
          rw [blockTable, ih, hlen, List.range_succ_eq_map, List.map_cons, List.map_map]
          rfl

/-- After a call that succeeds the next one goes on with its result. -/
theorem run_bind_of_ok {α β : Type} {x : Call α} {g : α → Call β} {s s' : Session} {a : α}
    (h : x.run s = .ok a s') : (x >>= g).run s = (g a).run s' := by
  rw [EStateM.run_bind, h]

/-- A piece is written behind the last one. -/
theorem run_writeStream (d : Bytes) (s : Session) :
    (writeStream d).run s = .ok ()
      { writer := { s.writer with tell := s.writer.tell + d.length },
        file := pwrite s.file d s.writer.tell } := rfl

/-- What `finish` writes when its checks pass: the number of blocks, the table and the filter from where
the stream is, and the header at the start. -/
theorem run_finishCall_writes (s : Session) (header : ℕ → DictionaryHeader) (number : Bytes)
    (table : List Bytes) (filter : BloomFilter) (hheader : ∀ start, (header start).magic = magic) :
    (do
      writeStream number
      writeStreamAll table
      let start := (← get).writer.tell
      writeStreamAll (bloomFilterWriteToStream filter)
      modifyWriter fun w => { w with tell := 0 }
      writeStream (header start).toBytes : Call Unit).run s =
    .ok ()
      { writer := { s.writer with tell := DictionaryHeader.sizeof },
        file := applyWrites s.file
          (seqWrites s.writer.tell (number :: table ++ bloomFilterWriteToStream filter) ++
            [⟨0, (header (s.writer.tell + (number :: table).flatten.length)).toBytes⟩]) } := by
  have hget : ∀ (g : Session → Call Unit) (t : Session), (get >>= g).run t = (g t).run t :=
    fun g t => rfl
  rw [run_bind_of_ok (run_writeStream number s), run_bind_of_ok (run_writeStreamAll table _), hget,
    run_bind_of_ok (run_writeStreamAll _ _), seqWrites_append, applyWrites_append, applyWrites_append,
    List.flatten_cons, List.length_append, ← Nat.add_assoc,
    ← DictionaryHeader.length_toBytes
      (hheader (s.writer.tell + number.length + table.flatten.length)),
    ← Nat.zero_add (DictionaryHeader.toBytes _).length]
  rfl

/-- **A call of `finish`**: an error leaves the state as it was. -/
theorem run_finishCall (s : Session) :
    match finish s.writer with
    | .ok (w, ws) => finishCall.run s = .ok () ⟨w, applyWrites s.file ws⟩
    | .error (.gerror e) => finishCall.run s = .error (.gerror e) s
    | .error .abort => ∃ s', finishCall.run s = .error .abort s' := by
  have hget : ∀ g : Session → Call Unit, (get >>= g).run s = (g s).run s := fun g => rfl
  unfold finish finishCall
  rw [hget]
  by_cases hcount : s.writer.nEntriesAdded = s.writer.nEntriesTotal
  · by_cases hblocks : s.writer.offsets.length = s.writer.nBlocks
    · have htable : blockTable (s.writer.offsets ++ [s.writer.tell]) =
          (List.range s.writer.nBlocks).map (blockAtOffsets (s.writer.offsets ++ [s.writer.tell])) := by
        rw [blockTable_eq_map, List.length_append, List.length_singleton, Nat.add_sub_cancel, hblocks]
      have hwrites := run_finishCall_writes
        { s with writer := { s.writer with offsets := s.writer.offsets ++ [s.writer.tell] } }
        (fun start => ⟨magic, s.writer.tell, start⟩)
        (le 2 s.writer.nBlocks)
        ((blockTable (s.writer.offsets ++ [s.writer.tell])).map DictionaryBlockTableEntry.toBytes)
        s.writer.bloomFilter fun _ => rfl
      simp only [if_neg (not_not.mpr hcount), if_neg (not_not.mpr hblocks)]
      rw [htable, List.map_map] at hwrites ⊢
      exact hwrites
    · simp only [hcount, hblocks, ne_eq, not_true_eq_false, not_false_eq_true, if_true, if_false]
      exact ⟨s, rfl⟩
  · simp only [hcount, ne_eq, not_false_eq_true, if_true]
    rfl

/-! ## Runs of calls -/

/-- One call of `add_entry` by a program that goes on after an error. -/
def callStep (s : Session) (e : Entry) : Result Session :=
  match (addEntryCall e.key e.value).run s with
  | .ok _ s' => .ok s'
  | .error (.gerror _) s' => .ok s'
  | .error .abort _ => .error .abort

/-- A sequence of calls. -/
def runCalls (s : Session) (es : List Entry) : Result Session := es.foldlM callStep s

/-- One call of `add_entry` is a step of the writer, with its writes. -/
theorem callStep_eq (s : Session) (e : Entry) :
    callStep s e = (step s.writer e).map fun r => ⟨r.1, applyWrites s.file r.2⟩ := by
  have hrun := run_addEntryCall s e.key e.value
  rcases hadd : addEntry s.writer e.key e.value with (e' | -) | ⟨w, ws⟩
  all_goals
    rw [hadd] at hrun
    simp only at hrun
  · rw [callStep, hrun, step, hadd]
    rfl
  · obtain ⟨s', hrun⟩ := hrun
    rw [callStep, hrun, step, hadd]
    rfl
  · rw [callStep, hrun, step, hadd]
    rfl

/-- **A run of calls** is a run of `addEntries` over the file. -/
theorem runCalls_eq (s : Session) (es : List Entry) :
    runCalls s es = (addEntries s.writer es).map fun r => ⟨r.1, applyWrites s.file r.2⟩ := by
  induction es generalizing s with
  | nil => rfl
  | cons e es ih =>
      rw [runCalls, List.foldlM_cons, callStep_eq, Dictionary.addEntries]
      rcases hstep : step s.writer e with f | ⟨w, ws⟩
      · rfl
      · have hrest := ih ⟨w, applyWrites s.file ws⟩
        show runCalls ⟨w, applyWrites s.file ws⟩ es = _
        rw [hrest]
        show _ = (Dictionary.addEntries w es >>= _).map _
        rcases Dictionary.addEntries w es with f | ⟨w', ws'⟩
        · rfl
        · show Except.ok (Session.mk _ _) = Except.ok (Session.mk _ _)
          rw [applyWrites_append]

/-- The calls succeed exactly if the steps of the writer do. -/
theorem runCalls_eq_ok_iff {s s' : Session} {es : List Entry} :
    runCalls s es = .ok s' ↔
      ∃ w ws, addEntries s.writer es = .ok (w, ws) ∧ s' = ⟨w, applyWrites s.file ws⟩ := by
  rw [runCalls_eq]
  rcases addEntries s.writer es with f | ⟨w, ws⟩
  · simp [Except.map]
  · simp [Except.map, eq_comm]

/-- The key of the last entry that was accepted. -/
def lastAccepted (last : Option CString) (es : List Entry) : Option CString :=
  ((accepted last es).getLast?.map Entry.key).or last

/-- An entry that is in order is the last one accepted. -/
theorem lastAccepted_cons_of_none {last : Option CString} {e : Entry} {es : List Entry}
    (h : (last.filter fun lastKey => e.key < lastKey) = none) :
    lastAccepted last (e :: es) = lastAccepted (some e.key) es := by
  simp only [lastAccepted, accepted, h]
  rw [List.getLast?_cons]
  cases (accepted (some e.key) es).getLast? <;> rfl

/-- An entry that is out of order is not. -/
theorem lastAccepted_cons_of_some {last : Option CString} {e : Entry} {es : List Entry}
    {lastKey : CString} (h : (last.filter fun lastKey => e.key < lastKey) = some lastKey) :
    lastAccepted last (e :: es) = lastAccepted last es := by
  simp only [lastAccepted, accepted, h]

/-- What a call that does not end the process does to the last key. -/
theorem lastKey_of_step {w w' : DictionaryWriter} {e : Entry} {ws : List Write}
    (h : step w e = .ok (w', ws)) :
    match w.lastKey.filter fun lastKey => e.key < lastKey with
    | some _ => w' = w
    | none => w'.lastKey = some e.key := by
  unfold step addEntry at h
  rcases hlast : w.lastKey.filter fun lastKey => e.key < lastKey with _ | lastKey
  · simp only [hlast] at h ⊢
    rcases hadd : bloomFilterAdd w.bloomFilter e.key with f | filter
    · rw [hadd, bloomFilterAdd_eq_error hadd] at h
      split_ifs at h <;> cases h
    · rw [hadd] at h
      split_ifs at h <;> cases h <;> rfl
  · simp only [hlast, outOfOrder] at h ⊢
    cases h
    rfl

/-- The writer remembers the key that was accepted last. -/
theorem lastKey_of_addEntries {w w' : DictionaryWriter} {es : List Entry} {ws : List Write}
    (h : addEntries w es = .ok (w', ws)) : w'.lastKey = lastAccepted w.lastKey es := by
  induction es generalizing w ws with
  | nil =>
      cases h
      rfl
  | cons e es ih =>
      rw [Dictionary.addEntries] at h
      rcases hstep : step w e with f | ⟨w₁, ws₁⟩
      · rw [hstep] at h
        cases h
      · rw [hstep] at h
        change (Dictionary.addEntries w₁ es >>= _) = _ at h
        rcases hrest : Dictionary.addEntries w₁ es with f | ⟨w₂, ws₂⟩
        · rw [hrest] at h
          cases h
        · rw [hrest] at h
          cases h
          have hkey := lastKey_of_step hstep
          rw [ih hrest]
          rcases hlast : w.lastKey.filter fun lastKey => e.key < lastKey with _ | lastKey
          · rw [hlast] at hkey
            simp only at hkey
            rw [hkey, lastAccepted_cons_of_none hlast]
          · rw [hlast] at hkey
            simp only at hkey
            rw [hkey, lastAccepted_cons_of_some hlast]

/-! ## Counting and rejecting -/

/-- The parameters `bloom_filter_init_for_params` makes of the optimal number of bits and the number of
hashes, which it computes in floating point: `(optimal_n_bits + 0x1f) & ~0x1f` bits.
Source: `eos-shard-bloom-filter.c`, `bloom_filter_init_for_params`. -/
def bloomFilterParams (optimalNBits : ℤ) (nHashes : ℕ) : BloomFilterHeader :=
  let nBits := ((optimalNBits + 0x1f) / 32 * 32 % 2 ^ 32).toNat
  ⟨nBits, nBits / 32, nHashes % 2 ^ 32⟩

/-- The parameters of a new filter are in range. -/
theorem bloomFilterParams_ok (optimalNBits : ℤ) (nHashes : ℕ) :
    (bloomFilterParams optimalNBits nHashes).Ok where
  nBits_mod := by
    simp only [bloomFilterParams]
    omega
  nBuckets_eq := rfl
  nBits_lt := by
    simp only [bloomFilterParams]
    omega
  nHashes_lt := Nat.mod_lt _ (by norm_num)

/-- A writer that has been opened over a file. -/
def startSession (nEntries : ℕ) (params : BloomFilterHeader) (file : Bytes) : Session :=
  ⟨beginEntries (newForStream nEntries params), file⟩

/-- The calls count and reject as they should: every call up to the `finish` is made on a live writer, it
sets its error and changes nothing if its key is smaller than the last accepted one, and is accepted
otherwise; the `finish` succeeds if the declared number of entries has been accepted, else it sets its
error and changes nothing. -/
structure CountsAndRejects (nEntries : ℕ) (s₀ : Session) (es : List Entry) : Prop where
  add : ∀ es₁ e es₂, es = es₁ ++ e :: es₂ → ∃ s, runCalls s₀ es₁ = .ok s ∧
    match (lastAccepted none es₁).filter fun lastKey => e.key < lastKey with
    | some lastKey => (addEntryCall e.key e.value).run s = .error (outOfOrder e.key lastKey) s
    | none => ∃ s', (addEntryCall e.key e.value).run s = .ok () s'
  finish : ∃ s, runCalls s₀ es = .ok s ∧
    ((accepted none es).length = nEntries → ∃ s', finishCall.run s = .ok () s') ∧
    ((accepted none es).length ≠ nEntries → ∃ e, finishCall.run s = .error (.gerror e) s)

section counting

variable {n : ℕ} {params : BloomFilterHeader} {file : Bytes}

/-- A run of calls on a writer with blocks never ends the process. -/
theorem runCalls_startSession (file : Bytes) (hparams : params.Ok) (hpos : 0 < n) (es : List Entry) :
    ∃ w ws, runCalls (startSession n params file) es = .ok ⟨w, applyWrites file ws⟩ ∧
      WriterAfter n params file (accepted none es) w ws ∧ w.lastKey = lastAccepted none es := by
  obtain ⟨w, ws, hrun, hafter⟩ := (writerAfter_beginEntries hparams file).addEntries hpos es
  exact ⟨w, ws, runCalls_eq_ok_iff.mpr ⟨w, ws, hrun, rfl⟩, hafter, lastKey_of_addEntries hrun⟩

/-- A call on a writer with blocks. -/
theorem run_addEntryCall_of_pos {s : Session} (hfilter : s.writer.bloomFilter.Ok)
    (hl : 0 < s.writer.blockLength) (e : Entry) :
    match s.writer.lastKey.filter fun lastKey => e.key < lastKey with
    | some lastKey => (addEntryCall e.key e.value).run s = .error (outOfOrder e.key lastKey) s
    | none => ∃ s', (addEntryCall e.key e.value).run s = .ok () s' := by
  have hrun := run_addEntryCall s e.key e.value
  rcases hlast : s.writer.lastKey.filter fun lastKey => e.key < lastKey with _ | lastKey
  · obtain ⟨filter, hadd, -⟩ := bloomFilterAdd_spec hfilter e.key
    simp only [addEntry, hlast, if_neg hl.ne', hadd, Except.map] at hrun ⊢
    exact ⟨_, hrun⟩
  · simp only [addEntry, hlast, outOfOrder] at hrun ⊢
    exact hrun

/-- The `finish` after any calls on a writer with blocks, unless the count has wrapped around. -/
theorem WriterAfter.run_finishCall {done : List Entry} {w : DictionaryWriter} {ws : List Write}
    (h : WriterAfter n params file done w ws) (hn : n < 2 ^ 31) :
    (done.length = n → ∃ s', finishCall.run ⟨w, applyWrites file ws⟩ = .ok () s') ∧
    (done.length % 2 ^ 32 ≠ n →
      ∃ e, finishCall.run ⟨w, applyWrites file ws⟩ = .error (.gerror e) ⟨w, applyWrites file ws⟩) := by
  have hrun := Dictionary.run_finishCall ⟨w, applyWrites file ws⟩
  constructor
  · intro hlen
    obtain ⟨w', hfinish⟩ := h.finish_eq hn hlen
    rw [hfinish] at hrun
    exact ⟨_, hrun⟩
  · intro hlen
    have hcount : w.nEntriesAdded ≠ w.nEntriesTotal := by
      rw [h.nEntriesAdded, h.nEntriesTotal]
      omega
    simp only [Dictionary.finish, if_pos hcount, wrongNumberEntries] at hrun
    exact ⟨_, hrun⟩

/-- A count that has wrapped around passes the check, and the number of blocks does not. -/
theorem WriterAfter.run_finishCall_abort {done : List Entry} {w : DictionaryWriter} {ws : List Write}
    (h : WriterAfter n params file done w ws) (hpos : 0 < n) (hn : n < 2 ^ 31)
    (hlen : 2 ^ 32 ≤ done.length) (hmod : done.length % 2 ^ 32 = n) :
    ∃ s', finishCall.run ⟨w, applyWrites file ws⟩ = .error .abort s' := by
  have hrun := Dictionary.run_finishCall ⟨w, applyWrites file ws⟩
  have hcount : w.nEntriesAdded = w.nEntriesTotal := by
    rw [h.nEntriesAdded, h.nEntriesTotal]
    omega
  have hblocks : w.offsets.length ≠ w.nBlocks := by
    have hmany := h.lt_length_offsets hpos hn hlen
    rw [h.nBlocks]
    omega
  simp only [Dictionary.finish, if_neg (not_not.mpr hcount), if_pos hblocks] at hrun
  exact hrun

end counting

/-- **When a run counts and rejects as it should**: entries were declared, or none is added, and the
number of accepted entries has not come around to the declared one. -/
theorem countsAndRejects_iff {n : ℕ} (hn : n < 2 ^ 31) (optimalNBits : ℤ) (nHashes : ℕ) (file : Bytes)
    (es : List Entry) :
    CountsAndRejects n (startSession n (bloomFilterParams optimalNBits nHashes) file) es ↔
      (0 < n ∨ es = []) ∧
        ((accepted none es).length < 2 ^ 32 ∨ (accepted none es).length % 2 ^ 32 ≠ n) := by
  have hparams := bloomFilterParams_ok optimalNBits nHashes
  constructor
  · intro h
    have hpos : 0 < n ∨ es = [] := by
      by_contra hc
      obtain ⟨h0, hes⟩ := not_or.mp hc
      obtain ⟨e, es', rfl⟩ := List.exists_cons_of_ne_nil hes
      obtain rfl := Nat.eq_zero_of_not_pos h0
      -- the first call divides by the block length
      obtain ⟨s, hs, s', hrun⟩ := h.add [] e es' rfl
      cases hs
      cases hrun
    refine ⟨hpos, ?_⟩
    by_contra hc
    obtain ⟨hlen, hmod⟩ := not_or.mp hc
    rw [not_lt] at hlen
    rw [ne_eq, not_not] at hmod
    have hpos : 0 < n := hpos.resolve_right fun hnil => by
      rw [hnil] at hlen
      exact absurd hlen (by decide)
    obtain ⟨w, ws, hrun, hafter, -⟩ := runCalls_startSession file hparams hpos es
    obtain ⟨s, hs, -, hne⟩ := h.finish
    rw [hrun] at hs
    cases hs
    obtain ⟨e, he⟩ := hne (by omega)
    obtain ⟨s', hs'⟩ := hafter.run_finishCall_abort hpos hn hlen hmod
    rw [hs'] at he
    cases he
  · rintro ⟨hpos | rfl, hmod⟩
    · refine ⟨fun es₁ e es₂ hes => ?_, ?_⟩
      · obtain ⟨w, ws, hrun, hafter, hkey⟩ := runCalls_startSession file hparams hpos es₁
        have hl : 0 < w.blockLength := hafter.blockLength ▸ ceilSqrt_pos hpos
        refine ⟨_, hrun, ?_⟩
        rw [← hkey]
        exact run_addEntryCall_of_pos (s := ⟨w, applyWrites file ws⟩) hafter.filter_ok hl e
      · obtain ⟨w, ws, hrun, hafter, -⟩ := runCalls_startSession file hparams hpos es
        obtain ⟨hfull, hwrong⟩ := hafter.run_finishCall hn
        refine ⟨_, hrun, hfull, fun hne => hwrong ?_⟩
        omega
    · have hafter := writerAfter_beginEntries (n := n) hparams file
      obtain ⟨hfull, hwrong⟩ := hafter.run_finishCall hn
      refine ⟨fun es₁ e es₂ hes => absurd hes (by simp), _, rfl, hfull, fun hne => hwrong ?_⟩
      exact hne

/-- An entry with an empty key and an empty value. -/
def blankEntry : Entry := ⟨CString.empty, CString.empty⟩

/-- Two such entries for a writer that was declared to have one. -/
theorem countsAndRejects_twoEntries :
    1 < 2 ^ 31 ∧ CountsAndRejects 1 (startSession 1 (bloomFilterParams 10 7) [])
      [blankEntry, blankEntry] :=
  ⟨by norm_num, (countsAndRejects_iff (by norm_num) 10 7 [] [blankEntry, blankEntry]).mpr
    ⟨Or.inl Nat.one_pos, Or.inl (by decide)⟩⟩

/-- An entry too many for a writer that was declared to have none divides by zero. -/
theorem not_countsAndRejects :
    ¬ ∀ (n : ℕ), n < 2 ^ 31 → ∀ (optimalNBits : ℤ) (nHashes : ℕ) (file : Bytes) (es : List Entry),
      CountsAndRejects n (startSession n (bloomFilterParams optimalNBits nHashes) file) es := by
  intro h
  obtain ⟨s, hs, s', hrun⟩ :=
    (h 0 (by norm_num) 0 0 [] [blankEntry]).add [] blankEntry [] rfl
  cases hs
  cases hrun

end EosShard.Dictionary
