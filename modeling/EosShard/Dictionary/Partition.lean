import EosShard.Dictionary.Calls

/-!
# The blocks partition the entries

The length of a block and the number of blocks are computed in floating point; taken exactly, they are the
ceilings of `√n` and of `n / blockLength` (`ceilSqrt_eq_ceil`, `ceilDiv_eq_ceil`).

* `entryStart_le_iff` orders the entries by where they start: no entry is empty.
* `whole_blockOf_iff`: an entry lies in block `j` exactly if `j` is its number divided by the length of a
  block.
* `blocks_partition`: **a run that accepts the declared number of entries, of any sizes, writes a block table
  that partitions them**, and the assertion of `finish` holds.
-/

namespace EosShard.Dictionary

open EosShard.Found

/-! ## The ceilings -/

/-- The rounded-up root is at most `m` exactly if the square of `m` suffices. -/
theorem ceilSqrt_le_iff {n m : ℕ} : ceilSqrt n ≤ m ↔ n ≤ m * m := by
  constructor
  · intro h
    exact (le_ceilSqrt_mul n).trans (Nat.mul_le_mul h h)
  · intro h
    have hle : n.sqrt ≤ m := Nat.sqrt_le_sqrt h |>.trans_eq (Nat.sqrt_eq m)
    unfold ceilSqrt
    split_ifs with hsquare
    · exact hle
    · refine Nat.lt_of_le_of_ne hle fun heq => hsquare ?_
      exact le_antisymm (Nat.sqrt_le n) (h.trans_eq (by rw [heq]))

/-- `ceil (sqrt (n))`, taken exactly. -/
theorem ceilSqrt_eq_ceil (n : ℕ) : ceilSqrt n = ⌈√(n : ℝ)⌉₊ := by
  refine eq_of_forall_ge_iff fun m => ?_
  rw [ceilSqrt_le_iff, Nat.ceil_le, Real.sqrt_le_left (Nat.cast_nonneg m), sq]
  exact_mod_cast Iff.rfl

/-- `ceil ((double) n / m)`, taken exactly. -/
theorem ceilDiv_eq_ceil {n m : ℕ} (hm : 0 < m) : ceilDiv n m = ⌈(n : ℝ) / m⌉₊ := by
  refine eq_of_forall_ge_iff fun k => ?_
  rw [ceilDiv_le_iff hm, Nat.ceil_le, div_le_iff₀ (Nat.cast_pos.mpr hm)]
  exact_mod_cast Iff.rfl

/-! ## Entries and blocks -/

section order

variable {l : ℕ} {es : List Entry}

/-- Entries start in their order. -/
theorem entryStart_mono {i j : ℕ} (h : i ≤ j) : entryStart es i ≤ entryStart es j := by
  obtain ⟨k, rfl⟩ := Nat.exists_eq_add_of_le h
  rw [entryStart_add]
  exact Nat.le_add_right _ _

/-- An entry starts behind the one in front of it. -/
theorem entryStart_succ {i : ℕ} (h : i < es.length) : entryStart es (i + 1) = entryStart es i + es[i].size := by
  rw [entryStart_add, List.drop_eq_getElem_cons h, List.take_succ_cons, List.take_zero, entriesBytes_cons,
    entriesBytes_nil, List.append_nil, Entry.length_toBytes]

/-- No two entries start at one place. -/
theorem entryStart_lt {i j : ℕ} (hij : i < j) (h : i < es.length) : entryStart es i < entryStart es j := by
  have hnext := entryStart_succ h
  have hpos := es[i].size_pos
  have hle : entryStart es (i + 1) ≤ entryStart es j := entryStart_mono hij
  omega

/-- The starts are in the order of the entries. -/
theorem entryStart_le_iff {i j : ℕ} (h : j < es.length) : entryStart es i ≤ entryStart es j ↔ i ≤ j := by
  refine ⟨fun hle => ?_, entryStart_mono⟩
  by_contra hij
  exact absurd (entryStart_lt (not_le.mp hij) h) (not_lt.mpr hle)

/-- A block reaches to the start of the next one. -/
theorem blockOf_end (l : ℕ) (es : List Entry) (j : ℕ) :
    (blockOf l es j).offset + (blockOf l es j).length = entryStart es ((j + 1) * l) := by
  rw [Nat.succ_mul, entryStart_add]
  rfl

/-- An entry lies whole in a block. -/
def Whole (es : List Entry) (i : ℕ) (b : DictionaryBlockTableEntry) : Prop :=
  b.offset ≤ entryStart es i ∧ entryStart es (i + 1) ≤ b.offset + b.length

/-- **The block of an entry.** -/
theorem whole_blockOf_iff {i j : ℕ} (hl : 0 < l) (hi : i < es.length) :
    Whole es i (blockOf l es j) ↔ j = i / l := by
  have hend : entryStart es (i + 1) ≤ entryStart es ((j + 1) * l) ↔ i < (j + 1) * l := by
    refine ⟨fun hle => ?_, fun hlt => entryStart_mono hlt⟩
    by_contra hij
    have hback : entryStart es ((j + 1) * l) ≤ entryStart es i := entryStart_mono (not_lt.mp hij)
    exact absurd (entryStart_lt (Nat.lt_succ_self i) hi) (not_lt.mpr (hle.trans hback))
  have hstart : (blockOf l es j).offset ≤ entryStart es i ↔ j * l ≤ i := entryStart_le_iff hi
  rw [Whole, blockOf_end, hstart, hend, eq_comm, Nat.div_eq_iff hl, Nat.succ_mul]
  omega

end order

/-- The blocks partition the entries: `l` by `l`, with fewer in the last block. -/
structure BlocksPartition (l : ℕ) (es : List Entry) (blocks : List DictionaryBlockTableEntry) : Prop where
  /-- A block starts where its first entry does, and there is such an entry. -/
  start : ∀ j b, blocks[j]? = some b → j * l < es.length ∧ b.offset = entryStart es (j * l)
  /-- It reaches to the next one. -/
  next : ∀ j b b', blocks[j]? = some b → blocks[j + 1]? = some b' → b.offset + b.length = b'.offset
  /-- The last one reaches to the end of the entries. -/
  last : ∀ b, blocks.getLast? = some b → b.offset + b.length = entriesEnd es
  nonempty : ∀ b ∈ blocks, 0 < b.length
  /-- Every entry lies in one block. -/
  whole : ∀ i, i < es.length → ∃! j : ℕ, ∃ b, blocks[j]? = some b ∧ Whole es i b

/-- The blocks are a partition of the entries. -/
theorem partition_blockOf {l : ℕ} (hl : 0 < l) (es : List Entry) :
    BlocksPartition l es ((List.range (ceilDiv es.length l)).map (blockOf l es)) where
  start j b hb := by
    obtain ⟨hj, rfl⟩ := getElem?_map_range hb
    exact ⟨(lt_ceilDiv_iff hl).mp hj, rfl⟩
  next j b b' hb hb' := by
    obtain ⟨-, rfl⟩ := getElem?_map_range hb
    obtain ⟨-, rfl⟩ := getElem?_map_range hb'
    rw [blockOf_end]
    rfl
  last b hb := by
    rw [List.getLast?_eq_getElem?, List.length_map, List.length_range] at hb
    obtain ⟨hj, rfl⟩ := getElem?_map_range hb
    have hcover := (ceilDiv_le_iff hl).mp (le_refl (ceilDiv es.length l))
    rw [blockOf_end, Nat.sub_add_cancel (Nat.one_le_iff_ne_zero.mpr (Nat.ne_zero_of_lt hj)),
      entryStart_of_le hcover]
  nonempty := by
    refine List.forall_mem_map.mpr fun j hj => ?_
    have hlt := (lt_ceilDiv_iff hl).mp (List.mem_range.mp hj)
    have hgrow : entryStart es (j * l) < entryStart es ((j + 1) * l) :=
      entryStart_lt (Nat.mul_lt_mul_of_pos_right (Nat.lt_succ_self j) hl) hlt
    rw [← blockOf_end] at hgrow
    exact Nat.pos_of_lt_add_right hgrow
  whole i hi := by
    have hj : i / l < ceilDiv es.length l :=
      (lt_ceilDiv_iff hl).mpr ((Nat.div_mul_le_self i l).trans_lt hi)
    refine ⟨i / l, ⟨blockOf l es (i / l), ?_, (whole_blockOf_iff hl hi).mpr rfl⟩, ?_⟩
    · rw [List.getElem?_map, List.getElem?_range hj, Option.map_some]
    · rintro j ⟨b, hb, hwhole⟩
      obtain ⟨-, rfl⟩ := getElem?_map_range hb
      exact (whole_blockOf_iff hl hi).mp hwhole

/-! ## What a run writes -/

/-- What `finish` finds and what it writes, in a session in which `n` entries have been accepted. -/
structure WritesPartition (n : ℕ) (es : List Entry) (s s' : Session) : Prop where
  blockLength : s.writer.blockLength = ⌈√(n : ℝ)⌉₊
  /-- The number of blocks has not been cut to its 16 bits. -/
  nBlocks : s.writer.nBlocks = ⌈(n : ℝ) / s.writer.blockLength⌉₊
  nBlocks_lt : s.writer.nBlocks < 2 ^ 16
  /-- What `finish` asserts. -/
  offsets : s.writer.offsets.length = s.writer.nBlocks
  /-- The entries are where they are said to start. -/
  entries : ∀ i e, es[i]? = some e → Holds s'.file (entryStart es i) e.toBytes
  table : ∃ blocks, blocks.length = s.writer.nBlocks ∧ BlocksPartition s.writer.blockLength es blocks ∧
    Holds s'.file (entriesEnd es)
      (le 2 s.writer.nBlocks ++ (blocks.map DictionaryBlockTableEntry.toBytes).flatten)
  /-- The header tells where the table is. -/
  header : ∃ bloomFilterStart,
    Holds s'.file 0 (DictionaryHeader.toBytes ⟨magic, entriesEnd es, bloomFilterStart⟩)

/-- A file that holds the entries holds each of them. -/
theorem holds_entry {file : Bytes} {es : List Entry}
    (h : Holds file DictionaryHeader.sizeof (entriesBytes es)) {i : ℕ} {e : Entry} (he : es[i]? = some e) :
    Holds file (entryStart es i) e.toBytes := by
  obtain ⟨hi, rfl⟩ := List.getElem?_eq_some_iff.mp he
  rw [← List.take_append_drop i es, entriesBytes_append, Holds.append_iff, List.drop_eq_getElem_cons hi,
    entriesBytes_cons, Holds.append_iff] at h
  exact h.2.1

/-- **The blocks that a run writes partition its entries**, for every declared number of entries, all
parameters of the filter, every previous contents of the file, and entries of any sizes. -/
theorem blocks_partition {n : ℕ} (hpos : 0 < n) (hn : n < 2 ^ 31) (optimalNBits : ℤ) (nHashes : ℕ)
    (file : Bytes) {es : List Entry} (hlen : (accepted none es).length = n) :
    ∃ s s', runCalls (startSession n (bloomFilterParams optimalNBits nHashes) file) es = .ok s ∧
      finishCall.run s = .ok () s' ∧ WritesPartition n (accepted none es) s s' := by
  obtain ⟨w, ws, hrun, hafter, -⟩ :=
    runCalls_startSession file (bloomFilterParams_ok optimalNBits nHashes) hpos es
  obtain ⟨w', hfinish⟩ := hafter.finish_eq hn hlen
  have hcall := run_finishCall ⟨w, applyWrites file ws⟩
  rw [hfinish] at hcall
  refine ⟨_, _, hrun, hcall, ?_⟩
  have hwritten := hafter.written hlen
  rw [applyWrites_append] at hwritten
  have hl := ceilSqrt_pos hpos
  have hblocks : w.nBlocks = ceilDiv n (ceilSqrt n) := by
    rw [hafter.nBlocks, Nat.mod_eq_of_lt (ceilDiv_ceilSqrt_lt hn)]
  have hoffsets := hafter.offsets_eq (fun h0 => absurd h0 hpos.ne') (by omega)
  exact
    { blockLength := hafter.blockLength.trans (ceilSqrt_eq_ceil n)
      nBlocks := by rw [hblocks, hafter.blockLength, ceilDiv_eq_ceil hl]
      nBlocks_lt := hblocks ▸ ceilDiv_ceilSqrt_lt hn
      offsets := by rw [hoffsets, List.length_map, List.length_range, hblocks, hlen]
      entries := fun i e he => holds_entry hwritten.entries he
      table := by
        have hpartition := partition_blockOf hl (accepted none es)
        have htable := hwritten.table
        rw [hlen] at hpartition
        rw [tableBytes, hlen] at htable
        refine ⟨(List.range (ceilDiv n (ceilSqrt n))).map (blockOf (ceilSqrt n) (accepted none es)), ?_,
          by rwa [hafter.blockLength], ?_⟩
        · rw [List.length_map, List.length_range, hblocks]
        · rw [hblocks, List.map_map]
          exact htable
      header := ⟨_, hwritten.header⟩ }

/-- Three entries, in a block of two and a block of one. -/
theorem blocks_partition_threeEntries :
    ∃ s s', runCalls (startSession 3 (bloomFilterParams 29 7) []) [blankEntry, blankEntry, blankEntry] =
        .ok s ∧ finishCall.run s = .ok () s' ∧
      WritesPartition 3 (accepted none [blankEntry, blankEntry, blankEntry]) s s' :=
  blocks_partition (by norm_num) (by norm_num) 29 7 []
    (show (accepted none [blankEntry, blankEntry, blankEntry]).length = 3 by decide)

end EosShard.Dictionary
