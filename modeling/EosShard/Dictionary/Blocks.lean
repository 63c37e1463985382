import EosShard.Dictionary.Reader
import EosShard.Dictionary.Writer

/-!
# What the dictionary writer writes

* `accepted` are the entries a run accepts.
* `WriterAfter` is the state of the writer, and what it has written, after a list of accepted entries;
  `WriterAfter.addEntries` carries it through a run and `writeDictionary_spec` through `finish`.
* The blocks partition the entries: block `j` has the entries from the `j * blockLength`-th on
  (`blockEntries`, `blockOf`), there are `ceilDiv n blockLength` blocks, and this number fits into
  16 bits (`ceilDiv_ceilSqrt_lt`).
* `Stored` is an opened dictionary that has the entries; `stored_of_written` opens what a run wrote, at
  any place of a larger file, and `stored_of_withoutFilter` does so after the filter has been switched
  off.
-/

namespace EosShard.Dictionary

open EosShard.Found

/-! ## The number of blocks -/

/-- A block with a given index exists exactly if its first entry does. -/
theorem lt_ceilDiv_iff {n m j : ℕ} (hm : 0 < m) : j < ceilDiv n m ↔ j * m < n := by
  rw [ceilDiv, Nat.lt_iff_add_one_le, Nat.le_div_iff_mul_le hm, Nat.succ_mul]
  omega

/-- The blocks suffice exactly if they have room for all entries. -/
theorem ceilDiv_le_iff {n m j : ℕ} (hm : 0 < m) : ceilDiv n m ≤ j ↔ n ≤ j * m := by
  rw [← not_lt, ← not_lt, lt_ceilDiv_iff hm]

/-- A dictionary with entries has blocks of at least one entry. -/
theorem ceilSqrt_pos {n : ℕ} (hn : 0 < n) : 0 < ceilSqrt n := by
  have := Nat.sqrt_pos.mpr hn
  unfold ceilSqrt
  split_ifs <;> omega

/-- As many blocks as a block has entries suffice. -/
theorem le_ceilSqrt_mul (n : ℕ) : n ≤ ceilSqrt n * ceilSqrt n := by
  unfold ceilSqrt
  split_ifs with h
  · exact h.ge
  · exact (Nat.lt_succ_sqrt n).le

/-- A dictionary with fewer than 2^31 entries has at most 46341 of them in a block. -/
theorem ceilSqrt_le {n : ℕ} (hn : n < 2 ^ 31) : ceilSqrt n ≤ 46341 := by
  have : n.sqrt < 46341 := Nat.sqrt_lt.mpr (hn.trans (by norm_num))
  unfold ceilSqrt
  split_ifs <;> omega

/-- **The number of blocks fits into 16 bits.** -/
theorem ceilDiv_ceilSqrt_lt {n : ℕ} (hn : n < 2 ^ 31) : ceilDiv n (ceilSqrt n) < 2 ^ 16 := by
  rcases Nat.eq_zero_or_pos n with rfl | hpos
  · decide
  · have h₁ := (ceilDiv_le_iff (ceilSqrt_pos hpos)).mpr (le_ceilSqrt_mul n)
    have h₂ := ceilSqrt_le hn
    omega

/-- The multiples below `m`, one for every block that has started. -/
theorem filter_range_eq {l : ℕ} (hl : 0 < l) (m : ℕ) :
    ((List.range m).filter fun i => i % l = 0) = (List.range (ceilDiv m l)).map (· * l) := by
  induction m with
  | zero => rw [(Nat.le_zero.mp ((ceilDiv_le_iff hl).mpr (Nat.zero_le _)) : ceilDiv 0 l = 0)]; rfl
  | succ m ih =>
      have hsucc : ceilDiv (m + 1) l = ceilDiv m l + if l ∣ m then 1 else 0 := by
        have : m + 1 + (l - 1) = m + (l - 1) + 1 := by omega
        rw [ceilDiv, this, Nat.succ_div, ceilDiv]
        congr 2
        rw [show m + (l - 1) + 1 = m + l by omega, Nat.dvd_add_self_right]
      rw [List.range_succ, List.filter_append, ih, hsucc]
      by_cases hd : l ∣ m
      · have hmul : ceilDiv m l * l = m := by
          obtain ⟨k, rfl⟩ := hd
          have : ceilDiv (l * k) l = k := le_antisymm
            ((ceilDiv_le_iff hl).mpr (Nat.mul_comm _ _).le)
            (not_lt.mp fun hc => by
              have := (ceilDiv_le_iff hl).mp (le_refl (ceilDiv (l * k) l))
              have := Nat.mul_lt_mul_of_pos_right hc hl
              rw [Nat.mul_comm k] at this
              omega)
          rw [this, Nat.mul_comm]
        rw [if_pos hd, List.range_succ, List.map_append, List.map_singleton, hmul]
        simp [Nat.mod_eq_zero_of_dvd hd]
      · rw [if_neg hd]
        simp [Nat.dvd_iff_mod_eq_zero.not.mp hd]

/-! ## A run of the writer -/

/-- The entries that are accepted by a writer whose last key is `last`. -/
def accepted : Option CString → List Entry → List Entry
  | _, [] => []
  | last, e :: es =>
      match last.filter fun lastKey => e.key < lastKey with
      | some _ => accepted last es
      | none => e :: accepted (some e.key) es

/-- Where the `i`-th entry starts. -/
def entryStart (es : List Entry) (i : ℕ) : ℕ :=
  DictionaryHeader.sizeof + (entriesBytes (es.take i)).length

/-- The offset behind the last entry. -/
def entriesEnd (es : List Entry) : ℕ := DictionaryHeader.sizeof + (entriesBytes es).length

/-- The writer, and what it has written over `prev`, after the entries `done`. -/
structure WriterAfter (n : ℕ) (params : BloomFilterHeader) (prev : Bytes) (done : List Entry)
    (w : DictionaryWriter) (log : List Write) : Prop where
  tell : w.tell = entriesEnd done
  nEntriesTotal : w.nEntriesTotal = n % 2 ^ 32
  blockLength : w.blockLength = ceilSqrt n
  nBlocks : w.nBlocks = ceilDiv n (ceilSqrt n) % 2 ^ 16
  nEntriesAdded : w.nEntriesAdded = done.length % 2 ^ 32
  lastKey : ∀ e ∈ done, ∃ lastKey ∈ w.lastKey, e.key ≤ lastKey
  offsets : w.offsets =
    ((List.range done.length).filter fun i => i % 2 ^ 32 % ceilSqrt n = 0).map (entryStart done)
  filter_ok : w.bloomFilter.Ok
  filter_header : w.bloomFilter.header = params
  contains : 0 < params.nBits → ∀ e ∈ done, w.bloomFilter.Contains e.key
  sorted : done.Pairwise fun e e' => e.key ≤ e'.key
  entries : Holds (applyWrites prev log) DictionaryHeader.sizeof (entriesBytes done)
  ends : ∀ x ∈ log, x.off + x.data.length ≤ w.tell

section writer

variable {n : ℕ} {params : BloomFilterHeader} {prev : Bytes}

/-- The invariant holds when `begin` has been called. -/
theorem writerAfter_beginEntries (hparams : params.Ok) (prev : Bytes) :
    WriterAfter n params prev [] (beginEntries (newForStream n params)) [] where
  tell := rfl
  nEntriesTotal := rfl
  blockLength := rfl
  nBlocks := rfl
  nEntriesAdded := rfl
  lastKey := List.forall_mem_nil _
  offsets := rfl
  filter_ok := bloomFilterInitForParams_ok hparams
  filter_header := rfl
  contains _ := List.forall_mem_nil _
  sorted := List.Pairwise.nil
  entries := Holds.nil _ _
  ends := List.forall_mem_nil _

/-- Where an entry starts depends only on those in front of it. -/
theorem entryStart_append {done : List Entry} {i : ℕ} (hi : i ≤ done.length) (es : List Entry) :
    entryStart (done ++ es) i = entryStart done i := by
  rw [entryStart, entryStart, List.take_append_of_le_length hi]

/-- Behind the last entry is the end of the entries. -/
theorem entryStart_of_le {es : List Entry} {i : ℕ} (hi : es.length ≤ i) :
    entryStart es i = entriesEnd es := by
  rw [entryStart, entriesEnd, List.take_of_length_le hi]

/-- One more entry moves the end by its size. -/
theorem entriesEnd_snoc (done : List Entry) (e : Entry) :
    entriesEnd (done ++ [e]) = entriesEnd done + e.size := by
  simp [entriesEnd, Nat.add_assoc]

/-- One entry more starts a block if the counter says so, and no other block starts elsewhere. -/
theorem blockStarts_snoc (n : ℕ) (done : List Entry) (e : Entry) :
    ((List.range (done ++ [e]).length).filter fun i => i % 2 ^ 32 % ceilSqrt n = 0).map
        (entryStart (done ++ [e])) =
      ((List.range done.length).filter fun i => i % 2 ^ 32 % ceilSqrt n = 0).map (entryStart done) ++
        if done.length % 2 ^ 32 % ceilSqrt n = 0 then [entriesEnd done] else [] := by
  have hold : ((List.range done.length).filter fun i => i % 2 ^ 32 % ceilSqrt n = 0).map
      (entryStart (done ++ [e])) =
        ((List.range done.length).filter fun i => i % 2 ^ 32 % ceilSqrt n = 0).map
          (entryStart done) := by
    refine List.map_congr_left fun i hi => entryStart_append ?_ _
    exact (List.mem_range.mp (List.mem_of_mem_filter hi)).le
  have hnew : entryStart (done ++ [e]) done.length = entriesEnd done := by
    rw [entryStart_append (le_refl _), entryStart_of_le (le_refl _)]
  rw [List.length_append, List.length_singleton, List.range_succ, List.filter_append,
    List.map_append, hold]
  by_cases hm : done.length % 2 ^ 32 % ceilSqrt n = 0
  · rw [if_pos hm, List.filter_cons, if_pos (decide_eq_true hm), List.filter_nil,
      List.map_singleton, hnew]
  · rw [if_neg hm, List.filter_cons, if_neg (mt of_decide_eq_true hm), List.filter_nil,
      List.map_nil]

/-- What a call does to a writer with blocks: a key below the last one is turned away, any other entry
is accepted. -/
theorem step_eq {w : DictionaryWriter} (hfilter : w.bloomFilter.Ok) (hl : 0 < w.blockLength)
    (e : Entry) :
    (∃ lastKey, (w.lastKey.filter fun lastKey => e.key < lastKey) = some lastKey ∧
      step w e = .ok (w, [])) ∨
    ((w.lastKey.filter fun lastKey => e.key < lastKey) = none ∧
      ∃ bloomFilter, bloomFilterAdd w.bloomFilter e.key = .ok bloomFilter ∧
        step w e = .ok
          ({ w with
              offsets := if w.nEntriesAdded % w.blockLength = 0 then w.offsets ++ [w.tell]
                else w.offsets,
              bloomFilter := bloomFilter, tell := w.tell + e.key.size + e.value.size,
              nEntriesAdded := (w.nEntriesAdded + 1) % 2 ^ 32, lastKey := some e.key },
            seqWrites w.tell [e.key.toBytes, e.value.toBytes])) := by
  rcases hf : w.lastKey.filter fun lastKey => e.key < lastKey with _ | lastKey
  · obtain ⟨bloomFilter, hadd, -⟩ := bloomFilterAdd_spec hfilter e.key
    refine Or.inr ⟨rfl, bloomFilter, hadd, ?_⟩
    simp only [step, addEntry, hf, Nat.pos_iff_ne_zero.mp hl, if_false, hadd]
    rfl
  · refine Or.inl ⟨lastKey, rfl, ?_⟩
    simp only [step, addEntry, hf, outOfOrder]

/-- An accepted entry extends what has been written. -/
theorem WriterAfter.snoc {done : List Entry} {w : DictionaryWriter} {log : List Write}
    (h : WriterAfter n params prev done w log) {e : Entry}
    (hkey : (w.lastKey.filter fun lastKey => e.key < lastKey) = none) {bloomFilter : BloomFilter}
    (hadd : bloomFilterAdd w.bloomFilter e.key = .ok bloomFilter) :
    WriterAfter n params prev (done ++ [e])
      { w with
          offsets := if w.nEntriesAdded % w.blockLength = 0 then w.offsets ++ [w.tell]
            else w.offsets,
          bloomFilter := bloomFilter, tell := w.tell + e.key.size + e.value.size,
          nEntriesAdded := (w.nEntriesAdded + 1) % 2 ^ 32, lastKey := some e.key }
      (log ++ seqWrites w.tell [e.key.toBytes, e.value.toBytes]) := by
  obtain ⟨bloomFilter', hadd', hok, hheader, -⟩ := bloomFilterAdd_spec h.filter_ok e.key
  rw [hadd] at hadd'
  cases hadd'
  have hle : ∀ e' ∈ done, e'.key ≤ e.key := by
    intro e' he'
    obtain ⟨lastKey, hlast, hle⟩ := h.lastKey e' he'
    have := Option.filter_eq_none_iff.mp hkey lastKey hlast
    exact hle.trans (not_lt.mp fun hc => this (decide_eq_true hc))
  refine ⟨?_, h.nEntriesTotal, h.blockLength, h.nBlocks, ?_, ?_, ?_, hok, hheader.trans h.filter_header,
    ?_, ?_, ?_, ?_⟩
  · simp only [entriesEnd_snoc, h.tell, Entry.size, Nat.add_assoc]
  · simp only [h.nEntriesAdded, List.length_append, List.length_singleton, Nat.mod_add_mod]
  · intro e' he'
    refine ⟨e.key, rfl, ?_⟩
    rcases List.mem_append.mp he' with he' | he'
    · exact hle e' he'
    · rw [List.mem_singleton.mp he']
  · show (if w.nEntriesAdded % w.blockLength = 0 then _ else _) = _
    rw [blockStarts_snoc, ← h.offsets, ← h.tell, h.nEntriesAdded, h.blockLength]
    split_ifs
    · rfl
    · rw [List.append_nil]
  · intro hpos
    obtain ⟨hself, hothers⟩ := contains_of_bloomFilterAdd h.filter_ok (h.filter_header ▸ hpos) hadd
    intro e' he'
    rcases List.mem_append.mp he' with he' | he'
    · exact hothers _ (h.contains hpos e' he')
    · rw [List.mem_singleton.mp he']
      exact hself
  · refine List.pairwise_append.mpr ⟨h.sorted, List.pairwise_singleton _ _, fun e' he' x hx => ?_⟩
    rw [List.mem_singleton.mp hx]
    exact hle e' he'
  · have htell : DictionaryHeader.sizeof + (entriesBytes done).length = w.tell := h.tell.symm
    rw [applyWrites_append, entriesBytes_append, Holds.append_iff, htell]
    refine ⟨h.entries.applyWrites_of_writesFrom (writesFrom_seqWrites _ _) htell.le, ?_⟩
    have := holds_applyWrites_seqWrites (applyWrites prev log) w.tell
      [e.key.toBytes, e.value.toBytes]
    simpa [Entry.toBytes] using this
  · intro x hx
    rcases List.mem_append.mp hx with hx | hx
    · exact (h.ends x hx).trans ((Nat.le_add_right _ _).trans (Nat.le_add_right _ _))
    · have := end_le_of_mem_seqWrites hx
      simpa [Nat.add_assoc] using this

/-- The first entry is added in front of the others. -/
theorem addEntries_cons {w w₁ w₂ : DictionaryWriter} {e : Entry} {es : List Entry} {ws ws' : List Write}
    (hstep : step w e = .ok (w₁, ws)) (hrun : addEntries w₁ es = .ok (w₂, ws')) :
    addEntries w (e :: es) = .ok (w₂, ws ++ ws') := by
  rw [addEntries, hstep]
  show (addEntries w₁ es >>= _) = _
  rw [hrun]
  rfl

/-- **A run of `add_entry` calls** accepts the entries of `accepted`. -/
theorem WriterAfter.addEntries (hn : 0 < n) {done : List Entry} {w : DictionaryWriter}
    {log : List Write} (h : WriterAfter n params prev done w log) (es : List Entry) :
    ∃ w' ws, addEntries w es = .ok (w', ws) ∧
      WriterAfter n params prev (done ++ accepted w.lastKey es) w' (log ++ ws) := by
  induction es generalizing done w log with
  | nil => exact ⟨w, [], rfl, by simpa [accepted] using h⟩
  | cons e es ih =>
      have hl : 0 < w.blockLength := h.blockLength ▸ ceilSqrt_pos hn
      rcases step_eq h.filter_ok hl e with ⟨lastKey, hf, hstep⟩ | ⟨hf, bloomFilter, hadd, hstep⟩
      · obtain ⟨w', ws, hrun, hafter⟩ := ih h
        refine ⟨w', [] ++ ws, addEntries_cons hstep hrun, ?_⟩
        simpa only [accepted, hf, List.nil_append] using hafter
      · obtain ⟨w', ws, hrun, hafter⟩ := ih (h.snoc hf hadd)
        refine ⟨w', _, addEntries_cons hstep hrun, ?_⟩
        simpa only [accepted, hf, List.append_assoc, List.singleton_append] using hafter

/-! ## The blocks -/

/-- The entries of block `j`, for blocks of `l` entries. -/
def blockEntries (l : ℕ) (es : List Entry) (j : ℕ) : List Entry := (es.drop (j * l)).take l

/-- Block `j` in the block table. -/
def blockOf (l : ℕ) (es : List Entry) (j : ℕ) : DictionaryBlockTableEntry :=
  ⟨entryStart es (j * l), (entriesBytes (blockEntries l es j)).length⟩

/-- The block table in the file, with the number of blocks in front. -/
def tableBytes (l : ℕ) (es : List Entry) : Bytes :=
  le 2 (ceilDiv es.length l) ++
    ((List.range (ceilDiv es.length l)).map fun j => (blockOf l es j).toBytes).flatten

/-- The header in front of the entries. -/
def headerOf (l : ℕ) (es : List Entry) : DictionaryHeader :=
  ⟨magic, entriesEnd es, entriesEnd es + (tableBytes l es).length⟩

/-- Without entries there are no blocks. -/
theorem ceilDiv_zero (l : ℕ) : ceilDiv 0 l = 0 := by
  rw [ceilDiv, Nat.zero_add]
  rcases Nat.eq_zero_or_pos l with rfl | hl
  · rfl
  · exact Nat.div_eq_of_lt (Nat.pred_lt hl.ne')

/-- An entry starts behind those between an earlier one and it. -/
theorem entryStart_add (es : List Entry) (i k : ℕ) :
    entryStart es (i + k) = entryStart es i + (entriesBytes ((es.drop i).take k)).length := by
  rw [entryStart, entryStart, List.take_add, entriesBytes_append, List.length_append, Nat.add_assoc]

/-- The distance to the next start is the length of the block. -/
theorem blockTable_starts (l : ℕ) (es : List Entry) (k m : ℕ) :
    blockTable ((List.range' k (m + 1)).map fun j => entryStart es (j * l)) =
      (List.range' k m).map (blockOf l es) := by
  induction m generalizing k with
  | zero => rfl
  | succ m ih =>
      have hlen : entryStart es ((k + 1) * l) - entryStart es (k * l) =
          (entriesBytes (blockEntries l es k)).length := by
        rw [Nat.succ_mul, entryStart_add, Nat.add_sub_cancel_left, blockEntries]
      have htail := ih (k + 1)
      rw [List.range'_succ, List.map_cons] at htail ⊢
      rw [List.range'_succ, List.map_cons, blockTable, hlen, htail, List.range'_succ, List.map_cons,
        blockOf]

/-- The starts of the blocks that `done` has begun. -/
theorem WriterAfter.offsets_eq {done : List Entry} {w : DictionaryWriter} {log : List Write}
    (h : WriterAfter n params prev done w log) (hn : n = 0 → done = []) (hlen : done.length ≤ 2 ^ 32) :
    w.offsets = (List.range (ceilDiv done.length (ceilSqrt n))).map fun j =>
      entryStart done (j * ceilSqrt n) := by
  rcases Nat.eq_zero_or_pos n with h0 | hpos
  · rw [h.offsets, hn h0, List.length_nil, ceilDiv_zero]
    rfl
  · have hmod : ∀ i ∈ List.range done.length, decide (i % 2 ^ 32 % ceilSqrt n = 0) =
        decide (i % ceilSqrt n = 0) := fun i hi => by
      rw [Nat.mod_eq_of_lt ((List.mem_range.mp hi).trans_le hlen)]
    rw [h.offsets, List.filter_congr hmod, filter_range_eq (ceilSqrt_pos hpos), List.map_map]
    rfl

/-- A count that has wrapped around leaves too many offsets behind. -/
theorem WriterAfter.lt_length_offsets {done : List Entry} {w : DictionaryWriter} {log : List Write}
    (h : WriterAfter n params prev done w log) (hpos : 0 < n) (hn : n < 2 ^ 31)
    (hlen : 2 ^ 32 ≤ done.length) : 2 ^ 16 ≤ w.offsets.length := by
  generalize hM : 2 ^ 32 = M at hlen
  have hmod : ∀ i ∈ List.range M, decide (i % 2 ^ 32 % ceilSqrt n = 0) =
      decide (i % ceilSqrt n = 0) := fun i hi => by
    rw [hM, Nat.mod_eq_of_lt (List.mem_range.mp hi)]
  have hsub := ((List.range_sublist.mpr hlen).filter
    fun i => decide (i % 2 ^ 32 % ceilSqrt n = 0)).length_le
  rw [List.filter_congr hmod, filter_range_eq (ceilSqrt_pos hpos), List.length_map,
    List.length_range] at hsub
  have hmany : 2 ^ 16 - 1 < ceilDiv M (ceilSqrt n) := by
    rw [lt_ceilDiv_iff (ceilSqrt_pos hpos), ← hM]
    have := ceilSqrt_le hn
    omega
  rw [h.offsets, List.length_map]
  omega

/-- `finish` only succeeds after as many entries as were declared. -/
theorem WriterAfter.length_of_finish {done : List Entry} {w w' : DictionaryWriter}
    {log ws : List Write} (h : WriterAfter n params prev done w log) (hn0 : n = 0 → done = [])
    (hn : n < 2 ^ 31) (hfinish : finish w = .ok (w', ws)) : done.length = n := by
  unfold finish at hfinish
  split_ifs at hfinish with hcount hblocks
  rw [not_not, h.nEntriesAdded, h.nEntriesTotal] at hcount
  rw [not_not, h.nBlocks] at hblocks
  rcases Nat.eq_zero_or_pos n with h0 | hpos
  · rw [hn0 h0, h0]
    rfl
  · have hlt : done.length < 2 ^ 32 := by
      by_contra hc
      have := h.lt_length_offsets hpos hn (not_lt.mp hc)
      omega
    omega

/-- The block table, the filter and the header that are written after the entries. -/
def finishWrites (n : ℕ) (done : List Entry) (filter : BloomFilter) : List Write :=
  seqWrites (entriesEnd done)
      ((le 2 (ceilDiv n (ceilSqrt n)) :: (List.range (ceilDiv n (ceilSqrt n))).map fun j =>
        (blockOf (ceilSqrt n) done j).toBytes) ++ bloomFilterWriteToStream filter) ++
    [⟨0, (headerOf (ceilSqrt n) done).toBytes⟩]

/-- After as many entries as were declared `finish` succeeds. -/
theorem WriterAfter.finish_eq {done : List Entry} {w : DictionaryWriter} {log : List Write}
    (h : WriterAfter n params prev done w log) (hn : n < 2 ^ 31) (hlen : done.length = n) :
    ∃ w', finish w = .ok (w', finishWrites n done w.bloomFilter) := by
  have hoffsets := h.offsets_eq (fun h0 => List.length_eq_zero_iff.mp (hlen.trans h0)) (by omega)
  have hblocks : w.nBlocks = ceilDiv n (ceilSqrt n) := by
    rw [h.nBlocks, Nat.mod_eq_of_lt (ceilDiv_ceilSqrt_lt hn)]
  have hend : w.tell = entryStart done (ceilDiv n (ceilSqrt n) * ceilSqrt n) := by
    rw [h.tell, entryStart_of_le]
    rcases Nat.eq_zero_or_pos n with h0 | hpos
    · omega
    · rw [hlen]
      exact (ceilDiv_le_iff (ceilSqrt_pos hpos)).mp (le_refl _)
  have htable : blockTable (w.offsets ++ [w.tell]) =
      (List.range (ceilDiv n (ceilSqrt n))).map (blockOf (ceilSqrt n) done) := by
    have := blockTable_starts (ceilSqrt n) done 0 (ceilDiv n (ceilSqrt n))
    rw [← List.range_eq_range', ← List.range_eq_range', List.range_succ, List.map_append] at this
    rw [hoffsets, hlen, hend]
    exact this
  unfold finish
  rw [if_neg (by rw [h.nEntriesAdded, h.nEntriesTotal, hlen]; exact not_not.mpr rfl),
    if_neg (by rw [hoffsets, List.length_map, List.length_range, hblocks, hlen]; exact not_not.mpr rfl)]
  refine ⟨{ w with offsets := w.offsets ++ [w.tell], tell := DictionaryHeader.sizeof }, ?_⟩
  simp only [htable, List.map_map]
  simp only [finishWrites, hblocks, h.tell, headerOf, tableBytes, hlen, List.flatten_cons]
  rfl

/-! ## The file -/

/-- A file that starts with a dictionary of the entries, in blocks of `l` entries. -/
structure Written (params : BloomFilterHeader) (l : ℕ) (es : List Entry) (file : Bytes) : Prop where
  sorted : es.Pairwise fun e e' => e.key ≤ e'.key
  header : Holds file 0 (headerOf l es).toBytes
  entries : Holds file DictionaryHeader.sizeof (entriesBytes es)
  table : Holds file (entriesEnd es) (tableBytes l es)
  filter : ∃ filter : BloomFilter, filter.Ok ∧ filter.header = params ∧
    (0 < params.nBits → ∀ e ∈ es, filter.Contains e.key) ∧
    Holds file (headerOf l es).bloomFilterStart (bloomFilterWriteToStream filter).flatten

/-- The header has its size. -/
theorem length_headerOf (l : ℕ) (es : List Entry) :
    (headerOf l es).toBytes.length = DictionaryHeader.sizeof :=
  DictionaryHeader.length_toBytes rfl

/-- The entries end behind the header. -/
theorem le_entriesEnd (es : List Entry) : DictionaryHeader.sizeof ≤ entriesEnd es :=
  Nat.le_add_right _ _

/-- When a writer with all its entries is finished, the file is a dictionary of them. -/
theorem WriterAfter.written {done : List Entry} {w : DictionaryWriter} {log : List Write}
    (h : WriterAfter n params prev done w log) (hlen : done.length = n) :
    Written params (ceilSqrt n) done (applyWrites prev (log ++ finishWrites n done w.bloomFilter)) := by
  -- the header goes to a place of its own, after everything else
  have hkeep : ∀ {f d : Bytes} {off : ℕ}, Holds f off d → DictionaryHeader.sizeof ≤ off →
      Holds (pwrite f (headerOf (ceilSqrt n) done).toBytes 0) off d := fun hheld hoff =>
    hheld.pwrite (Or.inr (by rw [length_headerOf]; omega))
  have hall := holds_applyWrites_seqWrites (applyWrites prev log) (entriesEnd done)
    ((le 2 (ceilDiv n (ceilSqrt n)) :: (List.range (ceilDiv n (ceilSqrt n))).map fun j =>
      (blockOf (ceilSqrt n) done j).toBytes) ++ bloomFilterWriteToStream w.bloomFilter)
  have htable : (le 2 (ceilDiv n (ceilSqrt n)) :: (List.range (ceilDiv n (ceilSqrt n))).map fun j =>
      (blockOf (ceilSqrt n) done j).toBytes).flatten = tableBytes (ceilSqrt n) done := by
    rw [List.flatten_cons, tableBytes, hlen]
  rw [List.flatten_append, htable, Holds.append_iff] at hall
  rw [finishWrites, applyWrites_append, applyWrites_append]
  have hend := le_entriesEnd done
  exact
    { sorted := h.sorted
      header := holds_pwrite _ _ _
      entries := hkeep (h.entries.applyWrites_of_writesFrom (writesFrom_seqWrites _ _) (le_refl _))
        (le_refl _)
      table := hkeep hall.1 hend
      filter := ⟨w.bloomFilter, h.filter_ok, h.filter_header, h.contains,
        hkeep hall.2 (hend.trans (Nat.le_add_right _ _))⟩ }

/-- The entries take the sum of their sizes. -/
theorem length_entriesBytes (es : List Entry) : (entriesBytes es).length = (es.map Entry.size).sum := by
  induction es with
  | nil => rfl
  | cons e es ih => rw [entriesBytes_cons, List.length_append, e.length_toBytes, ih]; rfl

/-- The table takes its count and one entry for each block. -/
theorem length_tableBytes (l : ℕ) (es : List Entry) :
    (tableBytes l es).length = 2 + ceilDiv es.length l * DictionaryBlockTableEntry.sizeof := by
  rw [tableBytes, List.length_append, length_le,
    length_flatten_map_of_forall fun _ _ => DictionaryBlockTableEntry.length_toBytes _, List.length_range]

/-- Where the file ends, if it was empty before. -/
def fileEnd (params : BloomFilterHeader) (l : ℕ) (es : List Entry) : ℕ :=
  (headerOf l es).bloomFilterStart + BloomFilterHeader.sizeof + params.nBuckets * 4

/-- No write goes beyond the end of the file. -/
theorem WriterAfter.ends_of_finish {done : List Entry} {w : DictionaryWriter} {log : List Write}
    (h : WriterAfter n params prev done w log) (hlen : done.length = n) :
    ∀ x ∈ log ++ finishWrites n done w.bloomFilter, x.off + x.data.length ≤ fileEnd params (ceilSqrt n) done := by
  have hfilter : (bloomFilterWriteToStream w.bloomFilter).flatten.length =
      BloomFilterHeader.sizeof + params.nBuckets * 4 := by
    rw [bloomFilterWriteToStream, List.flatten_cons, List.flatten_cons, List.flatten_nil,
      List.append_nil, List.length_append, BloomFilterHeader.length_toBytes, length_wordBytes,
      h.filter_ok.length, h.filter_header]
  have hend := le_entriesEnd done
  intro x hx
  rw [finishWrites] at hx
  simp only [List.mem_append, List.mem_singleton] at hx
  rw [fileEnd, headerOf]
  rcases hx with hx | hx | rfl
  · have hx' := h.ends x hx
    rw [h.tell] at hx'
    simp only
    omega
  · have hx' := end_le_of_mem_seqWrites hx
    rw [List.flatten_append, List.flatten_cons, List.length_append, hfilter] at hx'
    simp only [tableBytes, hlen]
    omega
  · rw [length_headerOf]
    simp only
    omega

/-- Without a declared entry there is no block length to divide by. -/
theorem eq_nil_of_addEntries {w w' : DictionaryWriter} {es : List Entry} {ws : List Write}
    (hl : w.blockLength = 0) (hlast : w.lastKey = none) (h : addEntries w es = .ok (w', ws)) :
    es = [] := by
  cases es with
  | nil => rfl
  | cons e es =>
      have hstep : step w e = .error .abort := by
        simp only [step, addEntry, hlast, hl, Option.filter_none, if_true]
      rw [Dictionary.addEntries, hstep] at h
      cases h

/-- A dictionary is written if all entries are accepted and `finish` succeeds. -/
theorem writeDictionary_eq_ok_iff {es : List Entry} {log : List Write} :
    writeDictionary n params es = .ok log ↔
      ∃ w ws w' ws', addEntries (beginEntries (newForStream n params)) es = .ok (w, ws) ∧
        finish w = .ok (w', ws') ∧ ws ++ ws' = log := by
  unfold writeDictionary
  constructor
  · intro h
    rcases hrun : addEntries (beginEntries (newForStream n params)) es with e | ⟨w, ws⟩
    · rw [hrun] at h
      cases h
    · rcases hfinish : finish w with e | ⟨w', ws'⟩
      · rw [hrun] at h
        change (finish w >>= _) = _ at h
        rw [hfinish] at h
        cases h
      · rw [hrun] at h
        change (finish w >>= _) = _ at h
        rw [hfinish] at h
        cases h
        exact ⟨w, ws, w', ws', rfl, hfinish, rfl⟩
  · rintro ⟨w, ws, w', ws', hrun, hfinish, rfl⟩
    rw [hrun]
    show (finish w >>= _) = _
    rw [hfinish]
    rfl

/-- **A run that finishes** has accepted as many entries as were declared, and the file starts with a
dictionary of them. -/
theorem writeDictionary_spec (hparams : params.Ok) (hn : n < 2 ^ 31) {es : List Entry}
    {log : List Write} (h : writeDictionary n params es = .ok log) (prev : Bytes) :
    (accepted none es).length = n ∧
      Written params (ceilSqrt n) (accepted none es) (applyWrites prev log) ∧
      ∀ x ∈ log, x.off + x.data.length ≤ fileEnd params (ceilSqrt n) (accepted none es) := by
  obtain ⟨w, ws, w', ws', hrun, hfinish, rfl⟩ := writeDictionary_eq_ok_iff.mp h
  have hnil : n = 0 → es = [] := by
    rintro rfl
    exact eq_nil_of_addEntries rfl rfl hrun
  have hafter : WriterAfter n params prev (accepted none es) w ws := by
    rcases Nat.eq_zero_or_pos n with h0 | hpos
    · rw [hnil h0] at hrun ⊢
      cases hrun
      exact writerAfter_beginEntries hparams prev
    · obtain ⟨w₁, ws₁, hrun', hafter⟩ :=
        (writerAfter_beginEntries hparams prev).addEntries hpos es
      rw [hrun] at hrun'
      cases hrun'
      exact hafter
  have hlen := hafter.length_of_finish (fun h0 => by rw [hnil h0]; rfl) hn hfinish
  obtain ⟨w₂, hfinish'⟩ := hafter.finish_eq hn hlen
  rw [hfinish] at hfinish'
  cases hfinish'
  exact ⟨hlen, hafter.written hlen, hafter.ends_of_finish hlen⟩

/-- The number of blocks fits into 16 bits. -/
theorem ceilDiv_accepted_lt (hn : n < 2 ^ 31) {es : List Entry} (h : (accepted none es).length = n) :
    ceilDiv (accepted none es).length (ceilSqrt n) < 2 ^ 16 := by
  rw [h]
  exact ceilDiv_ceilSqrt_lt hn

/-- A run that accepts as many entries as were declared finishes. -/
theorem writeDictionary_isOk (hparams : params.Ok) (hn0 : 0 < n) (hn : n < 2 ^ 31) {es : List Entry}
    (h : (accepted none es).length = n) : ∃ log, writeDictionary n params es = .ok log := by
  obtain ⟨w, ws, hrun, hafter⟩ := (writerAfter_beginEntries hparams []).addEntries hn0 es
  obtain ⟨w', hfinish⟩ := hafter.finish_eq hn h
  exact ⟨_, writeDictionary_eq_ok_iff.mpr ⟨w, ws, w', _, hrun, hfinish, rfl⟩⟩

end writer

/-! ## The opened dictionary -/

/-- A dictionary whose filter is switched off, as the format allows: the start of the filter is 0. -/
def withoutFilter (file : Bytes) : Bytes := pwrite file (le 8 0) 16

/-- An opened dictionary of the entries, in blocks of `l` entries. -/
structure Stored (params : BloomFilterHeader) (l : ℕ) (es : List Entry) (d : EosShardDictionary) :
    Prop where
  length_lt : d.fd.length < 2 ^ 63
  sorted : es.Pairwise fun e e' => e.key ≤ e'.key
  entries : Holds d.fd (d.offset + DictionaryHeader.sizeof) (entriesBytes es)
  table : Holds d.fd (d.offset + d.header.blockTableStart) (tableBytes l es)
  filter : ∀ filter ∈ d.bloomFilter, filter.Ok ∧ filter.header = params ∧
    (0 < params.nBits → ∀ e ∈ es, filter.Contains e.key)

section opened

variable {params : BloomFilterHeader} {l : ℕ} {es : List Entry} {file pre post : Bytes}

/-- A dictionary opens if its header is there, and its filter, if it has one, can be read. -/
theorem newForFd_of_holds {heap : Heap} {fd : Bytes} {offset : ℕ} {header : DictionaryHeader}
    (hheld : Holds fd offset header.toBytes) (hmagic : header.magic = magic)
    (htable : header.blockTableStart < 2 ^ 64) (hfilter : header.bloomFilterStart < 2 ^ 64)
    (hoff : offset < 2 ^ 63) :
    newForFd heap fd offset = if header.bloomFilterStart ≠ 0 then
      (bloomFilterInitForFd fd (offset + header.bloomFilterStart)).map fun bloomFilter =>
        ⟨fd, offset, header, some bloomFilter⟩
      else .ok ⟨fd, offset, header, none⟩ := by
  have hread : overlay (heap DictionaryHeader.sizeof).toList (slice fd offset DictionaryHeader.sizeof) =
      header.toBytes := by
    rw [hheld.slice_eq (DictionaryHeader.length_toBytes hmagic).symm]
    exact overlay_full (by simp [DictionaryHeader.length_toBytes hmagic])
  have hopen : dictionaryOpen heap fd offset = some header := by
    simp only [dictionaryOpen, pread_eq hoff, Option.getD_some, hread,
      DictionaryHeader.ofBytes_toBytes hmagic htable hfilter, if_pos hmagic]
  rw [newForFd, hopen]

/-- A dictionary keeps the file and the offset that it was opened with. -/
theorem eq_of_newForFd {heap : Heap} {fd : Bytes} {offset : ℕ} {d : EosShardDictionary}
    (h : newForFd heap fd offset = .ok d) : d.fd = fd ∧ d.offset = offset := by
  unfold newForFd at h
  split at h
  · cases h
  · split_ifs at h
    · rcases hfilter : bloomFilterInitForFd fd (offset + _) with e | filter
      · rw [hfilter] at h
        cases h
      · rw [hfilter] at h
        cases h
        exact ⟨rfl, rfl⟩
    · cases h
      exact ⟨rfl, rfl⟩

/-- The header and the filter of a written dictionary are within the file. -/
theorem Written.bounds (h : Written params l es file) :
    DictionaryHeader.sizeof ≤ file.length ∧
      (headerOf l es).bloomFilterStart + BloomFilterHeader.sizeof ≤ file.length := by
  obtain ⟨filter, -, -, -, hheld⟩ := h.filter
  have h₁ := h.header.le_length (by simp [DictionaryHeader.toBytes, le])
  have h₂ := hheld.le_length (by simp [bloomFilterWriteToStream, BloomFilterHeader.toBytes, le])
  rw [length_headerOf] at h₁
  simp only [bloomFilterWriteToStream, List.flatten_cons, List.length_append,
    BloomFilterHeader.length_toBytes] at h₂
  omega

/-- **What a run wrote is opened** at its place in a larger file. -/
theorem stored_of_written (h : Written params l es file)
    (hlt : (pre ++ file ++ post).length < 2 ^ 63) :
    ∃ d, (∀ heap, newForFd heap (pre ++ file ++ post) pre.length = .ok d) ∧ Stored params l es d := by
  obtain ⟨filter, hok, hheader, hcontains, hheld⟩ := h.filter
  obtain ⟨hlen₁, hlen₂⟩ := h.bounds
  have hlen := hlt
  rw [List.length_append, List.length_append] at hlen
  have hstart : (headerOf l es).blockTableStart ≤ (headerOf l es).bloomFilterStart :=
    Nat.le_add_right _ _
  have hend : 24 ≤ (headerOf l es).blockTableStart := le_entriesEnd es
  have hfirst : Holds (pre ++ file ++ post) pre.length (headerOf l es).toBytes :=
    h.header.embed pre post
  refine ⟨⟨pre ++ file ++ post, pre.length, headerOf l es, some filter⟩, fun heap => ?_, ?_⟩
  · rw [newForFd_of_holds hfirst rfl (by omega) (by omega) (by omega),
      if_pos (by omega), bloomFilterInitForFd_of_holds hok (hheld.embed pre post) (by omega)]
    rfl
  · exact
      { length_lt := hlt
        sorted := h.sorted
        entries := h.entries.embed pre post
        table := h.table.embed pre post
        filter := fun filter' hmem => by
          cases hmem
          exact ⟨hok, hheader, hcontains⟩ }

/-- So is a dictionary whose filter is switched off. -/
theorem stored_of_withoutFilter (h : Written params l es file)
    (hlt : (pre ++ withoutFilter file ++ post).length < 2 ^ 63) :
    ∃ d, (∀ heap, newForFd heap (pre ++ withoutFilter file ++ post) pre.length = .ok d) ∧
      Stored params l es d ∧ d.bloomFilter = none := by
  obtain ⟨hlen₁, hlen₂⟩ := h.bounds
  have hstart : (headerOf l es).blockTableStart ≤ (headerOf l es).bloomFilterStart :=
    Nat.le_add_right _ _
  have hkeep : ∀ {d : Bytes} {off : ℕ}, Holds file off d → DictionaryHeader.sizeof ≤ off →
      Holds (withoutFilter file) off d := fun hheld hoff =>
    hheld.pwrite (Or.inr (by rw [length_le]; omega))
  have hheader : Holds (withoutFilter file) 0 (DictionaryHeader.toBytes ⟨magic, entriesEnd es, 0⟩) := by
    have hfirst := h.header
    simp only [DictionaryHeader.toBytes, Holds.append_iff, length_le] at hfirst ⊢
    have hmagic : (headerOf l es).magic.length = 8 := rfl
    rw [hmagic] at hfirst
    exact ⟨hfirst.1.pwrite (Or.inl (by rw [hmagic]; norm_num)),
      hfirst.2.1.pwrite (Or.inl (by rw [length_le])), holds_pwrite file (le 8 0) 16⟩
  have hlen := hlt
  rw [List.length_append, List.length_append] at hlen
  have hle : file.length ≤ (withoutFilter file).length := le_length_pwrite _ _ _
  have hfirst : Holds (pre ++ withoutFilter file ++ post) pre.length
      (DictionaryHeader.toBytes ⟨magic, entriesEnd es, 0⟩) := hheader.embed pre post
  have hend : (headerOf l es).blockTableStart = entriesEnd es := rfl
  refine ⟨⟨pre ++ withoutFilter file ++ post, pre.length, ⟨magic, entriesEnd es, 0⟩, none⟩,
    fun heap => ?_, ?_, rfl⟩
  · rw [newForFd_of_holds hfirst rfl (by simp only; omega) (by norm_num) (by omega)]
    exact if_neg (not_not.mpr rfl)
  · exact
      { length_lt := hlt
        sorted := h.sorted
        entries := (hkeep h.entries (le_refl _)).embed pre post
        table := (hkeep h.table (le_entriesEnd es)).embed pre post
        filter := fun filter hmem => by cases hmem }

end opened

end EosShard.Dictionary
