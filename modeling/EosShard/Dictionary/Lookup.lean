import EosShard.Dictionary.Scan
import EosShard.Dictionary.Value

/-!
# Lookups in a dictionary of the writer

What `eos_shard_dictionary_lookup_key` answers in a dictionary that the writer has finished, at any
place of a larger file.

* `lookupKey_of_accepted`: every accepted key is found.
* `lookupKey_none_iff`: exactly when the lookup of any other key answers `NULL`.
* `lookupKey_ends_iff`: exactly when the loops of a lookup end.
-/

namespace EosShard.Dictionary

open EosShard.Found

/-! ## The value of a key -/

/-- Where the first entry with the key has its value. -/
theorem valueStart_of_mem {fd : Bytes} {offset : ℕ} (pos : ℕ) {es : List Entry} {key : CString}
    (h : Holds fd (offset + pos) (entriesBytes es)) (hmem : ∃ e ∈ es, e.key = key) :
    ∃ value e, valueStart key pos es = some value ∧ e ∈ es ∧ e.key = key ∧
      Holds fd (offset + value) e.value.toBytes ∧ pos < value := by
  obtain ⟨es₁, e, es₂, rfl, hne, rfl⟩ := exists_first hmem
  have hpos := e.key.size_pos
  refine ⟨pos + (entriesBytes es₁).length + e.key.size, e, ?_, ?_, rfl, holds_value h, by omega⟩
  · rw [valueStart_append hne, valueStart, if_pos rfl]
  · exact List.mem_append_right _ List.mem_cons_self

/-- A key that is in no entry has no value. -/
theorem valueStart_of_not_mem (pos : ℕ) {es : List Entry} {key : CString}
    (h : ∀ e ∈ es, e.key ≠ key) : valueStart key pos es = none := by
  rw [← List.append_nil es, valueStart_append h]
  rfl

/-! ## The scan of a block of the writer -/

section lookup

variable {params : BloomFilterHeader} {l : ℕ} {es : List Entry} {d : EosShardDictionary} {key : CString}
  {stack : ℕ∞}

/-- The end of block `j`. -/
def stopOf (l : ℕ) (es : List Entry) (j : ℕ) : ℕ := (blockOf l es j).offset + (blockOf l es j).length

/-- What the last window of a scan of block `j` holds behind the block, taken for entries: the keys. -/
def strayKeysOf (d : EosShardDictionary) (l : ℕ) (es : List Entry) (j : ℕ) : List CString :=
  strayKeys d (lastWindow (blockOf l es j).offset (blockOf l es j).offset (blockEntries l es j))
    (stopOf l es j)

/-- At the start of a block the scan is at its entries. -/
theorem Stored.atEntries (h : Stored params l es d) {j : ℕ} (hl : 0 < l) (hj : j * l < es.length) :
    AtEntries d (stopOf l es j) (blockOf l es j).offset (blockOf l es j).offset (blockEntries l es j) where
  holds := h.holds_block j
  le := le_refl _
  lt_window := Nat.lt_add_of_pos_right (by norm_num)
  stop_eq := rfl
  lt_off := by
    have := h.blockOf_lt hl hj
    rw [stopOf]
    omega

/-- The end of a block does not wrap around. -/
theorem Stored.stop_mod (h : Stored params l es d) {j : ℕ} (hl : 0 < l) (hj : j * l < es.length) :
    ((blockOf l es j).offset + (blockOf l es j).length) % 2 ^ 64 = stopOf l es j := by
  have := h.blockOf_lt hl hj
  rw [stopOf, Nat.mod_eq_of_lt (by omega)]

/-- The lookup in a block is the scan from its start. -/
theorem Stored.returns_inBlock_iff (h : Stored params l es d) {j : ℕ} (hl : 0 < l)
    (hj : j * l < es.length) {r : Result ℕ} :
    Returns (fun fuel => dictionaryLookupKeyInBlock fuel d (blockOf l es j) key) r ↔
      Halts (scanStep d key (stopOf l es j)) (blockOf l es j).offset r := by
  simp only [dictionaryLookupKeyInBlock, h.stop_mod hl hj]
  exact returns_loop_iff

/-- **A key of the block is found**, with the value of an entry that has it. -/
theorem Stored.lookup_of_mem (h : Stored params l es d) {j : ℕ} (hl : 0 < l) (hj : j * l < es.length)
    (hfits : Fits key (blockEntries l es j)) (hmem : ∃ e ∈ blockEntries l es j, e.key = key) :
    ∃ e ∈ blockEntries l es j, e.key = key ∧ ∃ value, 0 < value ∧
      Returns (fun fuel => dictionaryLookupKeyInBlock fuel d (blockOf l es j) key) (.ok value) ∧
      Holds d.fd (d.offset + value) e.value.toBytes := by
  have hat := h.atEntries hl hj
  obtain ⟨value, e, hvalue, he, hkey, hheld, hlt⟩ := valueStart_of_mem _ (h.holds_block j) hmem
  refine ⟨e, he, hkey, value, by omega, ?_, hheld⟩
  rw [h.returns_inBlock_iff hl hj, hat.halts_iff (List.ne_nil_of_mem he)]
  exact (hat.scanFrom_of_some hfits hvalue _).mpr rfl

/-- The lookup of any other key ends as well, behind the block: with 0 if the key is not a stray key
there. -/
theorem Stored.lookup_of_not_mem (h : Stored params l es d) {j : ℕ} (hl : 0 < l) (hj : j * l < es.length)
    (hfits : Fits key (blockEntries l es j)) (hkey : ∀ e ∈ blockEntries l es j, e.key ≠ key) :
    ∃ value, Returns (fun fuel => dictionaryLookupKeyInBlock fuel d (blockOf l es j) key) (.ok value) ∧
      (value = 0 ↔ key ∉ strayKeysOf d l es j) := by
  have hat := h.atEntries hl hj
  have hne := blockEntries_ne_nil hl hj
  have hvalue := valueStart_of_not_mem (blockOf l es j).offset hkey
  simp only [h.returns_inBlock_iff hl hj, hat.halts_iff hne]
  have hscan := hat.scanFrom_of_none hfits hvalue
  obtain ⟨-, hle, hlt⟩ := hscan (.ok 0)
  by_cases hstray : key ∈ strayKeysOf d l es j
  · obtain ⟨value, hpos, hend⟩ := scanFrom_end_of_mem hle hlt hstray
    refine ⟨value, (hscan _).1.mpr ((hend _).mpr rfl), ?_⟩
    exact ⟨fun h0 => absurd h0 hpos.ne', fun hno => absurd hstray hno⟩
  · exact ⟨0, (hscan _).1.mpr ((scanFrom_end hle hlt hstray _).mpr rfl), fun _ => hstray, fun _ => rfl⟩

/-! ## From the filter to the block -/

/-- The filter tells that the key is not there. -/
def Rejects (stack : ℕ∞) (d : EosShardDictionary) (key : CString) : Prop :=
  ∃ filter ∈ d.bloomFilter, bloomFilterTest filter key stack = .ok false

/-- The test of the filter, if there is one, has room on the stack. -/
def FilterFits (stack : ℕ∞) (d : EosShardDictionary) : Prop :=
  ∀ filter ∈ d.bloomFilter, filter.header.OnStack stack

/-- Without a limit of the stack every filter can be tested. -/
theorem filterFits_top (d : EosShardDictionary) : FilterFits ⊤ d := fun filter _ => filter.header.onStack_top

/-- The lookup of a key comes to the search for a block, and survives it. -/
structure Passes (stack : ℕ∞) (d : EosShardDictionary) (l : ℕ) (es : List Entry) (key : CString) : Prop where
  filter : FilterFits stack d
  search : Searchable stack l es key

/-- Without a limit of the stack every key below 2 GiB passes. -/
theorem passes_top (d : EosShardDictionary) {key : CString} (h : key.size < 2 ^ 31) (l : ℕ)
    (es : List Entry) : Passes ⊤ d l es key := ⟨filterFits_top d, searchable_top h l es⟩

/-- A key that the filter rejects is not looked for. -/
theorem Stored.dictionaryLookupKey_of_rejects {heap : Heap} {fuel : ℕ} (h : Rejects stack d key) :
    dictionaryLookupKey fuel heap d key stack = some (.ok 0) := by
  obtain ⟨filter, hmem, htest⟩ := h
  rw [Option.mem_def] at hmem
  simp only [dictionaryLookupKey, hmem, htest]

/-- A key that the filter does not reject is looked for in the blocks. -/
theorem Stored.dictionaryLookupKey_of_not_rejects (h : Stored params l es d) {heap : Heap} {fuel : ℕ}
    (hkey : ¬ Rejects stack d key) (hroom : FilterFits stack d) :
    dictionaryLookupKey fuel heap d key stack = dictionaryLookupKeyInBlocks fuel heap d key stack := by
  rcases hfilter : d.bloomFilter with _ | filter
  · simp only [dictionaryLookupKey, hfilter]
  · obtain ⟨hok, -⟩ := h.filter filter hfilter
    have htest := bloomFilterTest_eq hok (hroom filter hfilter) key
    by_cases hcontains : 0 < filter.header.nBits ∧ filter.Contains key
    · rw [decide_eq_true hcontains] at htest
      simp only [dictionaryLookupKey, hfilter, htest]
    · rw [decide_eq_false hcontains] at htest
      exact absurd ⟨filter, hfilter, htest⟩ hkey

/-- No accepted key is rejected. -/
theorem Stored.not_rejects_of_mem (h : Stored params l es d) (hbits : 0 < params.nBits) {e : Entry}
    (he : e ∈ es) : ¬ Rejects stack d e.key := by
  rintro ⟨filter, hmem, htest⟩
  obtain ⟨hok, hheader, hcontains⟩ := h.filter filter hmem
  rw [bloomFilterTest_eq hok (onStack_of_bloomFilterTest htest), hheader,
    decide_eq_true ⟨hbits, hcontains hbits e he⟩] at htest
  cases htest

/-- A lookup behind the filter scans the selected block. -/
theorem Stored.inBlocks_eq (h : Stored params l es d) (hn : ceilDiv es.length l < 2 ^ 16) {heap : Heap}
    {fuel : ℕ} (hkey : Searchable stack l es key) :
    dictionaryLookupKeyInBlocks fuel heap d key stack = match selectedBlock l es key with
      | none => some (.ok 0)
      | some j => dictionaryLookupKeyInBlock fuel d (blockOf l es j) key := by
  rw [dictionaryLookupKeyInBlocks, h.dictionaryFindBlock_eq hn heap hkey]
  rcases selectedBlock l es key with _ | j
  · rfl
  · rfl

/-- A lookup that ends with the test of the filter or with the search for the block. -/
theorem Stored.dictionaryLookupKey_eq_abort (h : Stored params l es d) (hn : ceilDiv es.length l < 2 ^ 16)
    {heap : Heap} {fuel : ℕ} (hrej : ¬ Rejects stack d key) (hpass : ¬ Passes stack d l es key) :
    dictionaryLookupKey fuel heap d key stack = some (.error .abort) := by
  by_cases hroom : FilterFits stack d
  · have hsearch : ¬ Searchable stack l es key := fun hsearch => hpass ⟨hroom, hsearch⟩
    rw [h.dictionaryLookupKey_of_not_rejects hrej hroom, dictionaryLookupKeyInBlocks,
      h.dictionaryFindBlock_eq_abort hn heap hsearch]
  · simp only [FilterFits, not_forall] at hroom
    obtain ⟨filter, hmem, hno⟩ := hroom
    rw [Option.mem_def] at hmem
    simp only [dictionaryLookupKey, hmem, bloomFilterTest_eq_abort hno]

/-- Which value offset the lookup comes to: 0 for a key that the filter rejects or that has no block,
and what the scan of the selected block answers otherwise. -/
theorem Stored.returns_dictionaryLookupKey_iff (h : Stored params l es d)
    (hn : ceilDiv es.length l < 2 ^ 16) (heap : Heap) (hpass : Passes stack d l es key) (r : Result ℕ) :
    Returns (fun fuel => dictionaryLookupKey fuel heap d key stack) r ↔
      (Rejects stack d key ∨ selectedBlock l es key = none) ∧ r = .ok 0 ∨
      ¬ Rejects stack d key ∧ ∃ j, selectedBlock l es key = some j ∧
        Returns (fun fuel => dictionaryLookupKeyInBlock fuel d (blockOf l es j) key) r := by
  by_cases hrej : Rejects stack d key
  · simp only [Stored.dictionaryLookupKey_of_rejects hrej, hrej, true_or, true_and, not_true, false_and,
      or_false]
    exact ⟨fun hr => hr.unique (returns_const _), fun hr => hr ▸ returns_const _⟩
  · simp only [h.dictionaryLookupKey_of_not_rejects hrej hpass.filter, h.inBlocks_eq hn hpass.search, hrej,
      false_or, not_false_iff, true_and]
    rcases hsel : selectedBlock l es key with _ | j
    · simp only [true_and, reduceCtorEq, false_and, exists_false, or_false]
      exact ⟨fun hr => hr.unique (returns_const _), fun hr => hr ▸ returns_const _⟩
    · simp only [reduceCtorEq, false_and, false_or, Option.some.injEq, exists_eq_left']

/-- `NULL` is the answer for the value offset 0. -/
theorem returns_lookupKey_none_iff {heap : Heap} :
    Returns (fun fuel => lookupKey fuel heap d key stack) (.ok none) ↔
      Returns (fun fuel => dictionaryLookupKey fuel heap d key stack) (.ok 0) := by
  have hiff : ∀ fuel, lookupKey fuel heap d key stack = some (.ok none) ↔
      dictionaryLookupKey fuel heap d key stack = some (.ok 0) := fun fuel => by
    unfold lookupKey
    rcases dictionaryLookupKey fuel heap d key stack with _ | e | value
    · simp
    · simp
    · rw [Option.bind_some]
      by_cases h0 : value = 0
      · simp [h0]
      · simp [h0]
  simp only [Returns, hiff]

/-- The entries of a block are entries of the dictionary. -/
theorem mem_of_mem_blockEntries {j : ℕ} {e : Entry} (he : e ∈ blockEntries l es j) : e ∈ es :=
  List.mem_of_mem_drop (List.mem_of_mem_take he)

/-- Short entries fit in every block. -/
theorem fits_blockEntries {j : ℕ} (hsize : ∀ e ∈ es, e.size ≤ 8190) : Fits key (blockEntries l es j) :=
  fits_of_forall_lt fun e he => Nat.lt_succ_of_le (hsize e (mem_of_mem_blockEntries he))

/-- A stored key is found. -/
theorem Stored.lookupKey_of_mem (h : Stored params l es d) (hn : ceilDiv es.length l < 2 ^ 16)
    (hbits : 0 < params.nBits) (hl : 0 < l) (hsize : ∀ e ∈ es, e.size ≤ 8190) (heap : Heap) {e : Entry}
    (he : e ∈ es) :
    ∃ value, Returns (fun fuel => lookupKey fuel heap d e.key) (.ok (some value)) ∧
      ⟨e.key, value⟩ ∈ es := by
  have hlt : e.key.size < 2 ^ 31 := by
    have hle : e.key.size + e.value.size ≤ 8190 := hsize e he
    omega
  obtain ⟨j, hsel, hmem⟩ := exists_mem_blockEntries hl h.sorted he hlt
  obtain ⟨e', he', hkey, value, hpos, hscan, hheld⟩ :=
    h.lookup_of_mem hl (lt_of_lt_ceilDiv (lt_of_selectedBlock hsel)).2 (fits_blockEntries hsize) hmem
  have hoffset := (h.returns_dictionaryLookupKey_iff hn heap (passes_top d hlt l es) (.ok value)).mpr (Or.inr ⟨h.not_rejects_of_mem hbits he, j, hsel, hscan⟩)
  have hin := mem_of_mem_blockEntries he'
  have hfit : e'.value.size ≤ chunkSize := by
    have hle : e'.key.size + e'.value.size ≤ 8190 := hsize e' hin
    show e'.value.size ≤ 8191
    omega
  refine ⟨e'.value, hoffset.bind ?_, hkey ▸ hin⟩
  simp only [hpos.ne', if_false]
  exact (returns_readCstring hheld h.length_lt hfit).map
    fun value => (.ok (some value) : Result (Option CString))

/-- Exactly when the lookup of another key answers `NULL`. -/
theorem Stored.returns_none_iff (h : Stored params l es d) (hn : ceilDiv es.length l < 2 ^ 16)
    (hsize : ∀ e ∈ es, e.size ≤ 8190) (heap : Heap) (hkey : ∀ e ∈ es, e.key ≠ key) :
    Returns (fun fuel => lookupKey fuel heap d key stack) (.ok none) ↔
      Rejects stack d key ∨ Passes stack d l es key ∧
        ∀ j, selectedBlock l es key = some j → key ∉ strayKeysOf d l es j := by
  rw [returns_lookupKey_none_iff]
  by_cases hpass : Passes stack d l es key
  swap
  · by_cases hrej : Rejects stack d key
    · simp only [Stored.dictionaryLookupKey_of_rejects hrej, hrej, true_or, iff_true]
      exact returns_const _
    · simp only [h.dictionaryLookupKey_eq_abort hn hrej hpass, hrej, hpass, false_and, or_false,
        iff_false]
      exact fun hr => by cases hr.unique (returns_const _)
  rw [h.returns_dictionaryLookupKey_iff hn heap hpass]
  by_cases hrej : Rejects stack d key
  · simp only [hrej, true_or, true_and]
  rcases hsel : selectedBlock l es key with _ | j
  · simp [hrej, hpass]
  · obtain ⟨hl, hj⟩ := lt_of_lt_ceilDiv (lt_of_selectedBlock hsel)
    obtain ⟨value, hvalue, hzero⟩ := h.lookup_of_not_mem hl hj (fits_blockEntries hsize)
      fun e he => hkey e (mem_of_mem_blockEntries he)
    simp only [hrej, hpass, reduceCtorEq, or_self, false_and, not_false_iff, true_and, Option.some.injEq,
      exists_eq_left', false_or, forall_eq']
    rw [← hzero]
    constructor
    · exact fun h0 => (Except.ok.inj (h0.unique hvalue)).symm
    · rintro rfl
      exact hvalue

/-- The lookup of a key comes to the scan of block `j`. -/
structure Scans (stack : ℕ∞) (d : EosShardDictionary) (l : ℕ) (es : List Entry) (key : CString) (j : ℕ) :
    Prop extends Passes stack d l es key where
  notRejects : ¬ Rejects stack d key
  selected : selectedBlock l es key = some j

/-- Exactly when the loops of a lookup end. -/
theorem Stored.exists_returns_iff (h : Stored params l es d) (hn : ceilDiv es.length l < 2 ^ 16)
    (heap : Heap) :
    (∃ r, Returns (fun fuel => dictionaryLookupKey fuel heap d key stack) r) ↔
      ∀ j, Scans stack d l es key j → Fits key (blockEntries l es j) := by
  by_cases hrej : Rejects stack d key
  · refine iff_of_true ⟨.ok 0, ?_⟩ fun j hscans => absurd hrej hscans.notRejects
    simpa only [Stored.dictionaryLookupKey_of_rejects hrej] using returns_const _
  by_cases hpass : Passes stack d l es key
  swap
  · refine iff_of_true ⟨.error .abort, ?_⟩ fun j hscans => absurd hscans.toPasses hpass
    simpa only [h.dictionaryLookupKey_eq_abort hn hrej hpass] using returns_const _
  have hscans : ∀ j, Scans stack d l es key j ↔ selectedBlock l es key = some j := fun j =>
    ⟨Scans.selected, fun hsel => ⟨hpass, hrej, hsel⟩⟩
  simp only [h.returns_dictionaryLookupKey_iff hn heap hpass, hscans]
  rcases hsel : selectedBlock l es key with _ | j
  · simp [hrej]
  · obtain ⟨hl, hj⟩ := lt_of_lt_ceilDiv (lt_of_selectedBlock hsel)
    simp only [hrej, reduceCtorEq, or_self, false_and, not_false_iff, true_and, Option.some.injEq,
      exists_eq_left', false_or, forall_eq', h.returns_inBlock_iff hl hj]
    exact (h.atEntries hl hj).exists_halts_iff (blockEntries_ne_nil hl hj)

end lookup

/-- An entry whose key occurs once is the only one with it. -/
theorem eq_of_count_eq_one {es : List Entry} {e e' : Entry} (he : e ∈ es) (he' : e' ∈ es)
    (hkey : e'.key = e.key) (hcount : (es.map Entry.key).count e.key = 1) : e' = e := by
  rw [List.count, List.countP_map, List.countP_eq_length_filter, List.length_eq_one_iff] at hcount
  obtain ⟨a, ha⟩ := hcount
  have hmem : ∀ x ∈ es, x.key = e.key → x = a := fun x hx hk => by
    have : x ∈ es.filter ((· == e.key) ∘ Entry.key) := List.mem_filter.mpr ⟨hx, by simp [hk]⟩
    rw [ha] at this
    exact List.mem_singleton.mp this
  rw [hmem e' he' hkey, hmem e he rfl]

/-! ## Dictionaries of the writer -/

section written

variable {n : ℕ} {params : BloomFilterHeader} {es : List Entry} {log : List Write} {prev pre post : Bytes}

/-- **No false negatives.** Every accepted key is found with a value that was accepted with it, wherever
the dictionary lies in its file. -/
theorem lookupKey_of_accepted (hparams : params.Ok) (hbits : 0 < params.nBits) (hn : n < 2 ^ 31)
    (hrun : writeDictionary n params es = .ok log) (hsize : ∀ e ∈ accepted none es, e.size ≤ 8190)
    (hlt : (pre ++ applyWrites prev log ++ post).length < 2 ^ 63) :
    ∃ d, (∀ heap, newForFd heap (pre ++ applyWrites prev log ++ post) pre.length = .ok d) ∧
      ∀ heap, ∀ e ∈ accepted none es, ∃ value,
        Returns (fun fuel => lookupKey fuel heap d e.key) (.ok (some value)) ∧
        ⟨e.key, value⟩ ∈ accepted none es ∧
        (((accepted none es).map Entry.key).count e.key = 1 → value = e.value) := by
  obtain ⟨hlen, hwritten, -⟩ := writeDictionary_spec hparams hn hrun prev
  obtain ⟨d, hopen, hstored⟩ := stored_of_written hwritten hlt
  refine ⟨d, hopen, fun heap e he => ?_⟩
  have hpos : 0 < n := hlen ▸ List.length_pos_of_mem he
  obtain ⟨value, hlookup, hmem⟩ := hstored.lookupKey_of_mem (ceilDiv_accepted_lt hn hlen) hbits
    (ceilSqrt_pos hpos) hsize heap he
  exact ⟨value, hlookup, hmem, fun hcount => congrArg Entry.value (eq_of_count_eq_one he hmem rfl hcount)⟩

/-- Two entries, and one that is turned away between them. -/
def wordsEntries : List Entry :=
  [⟨⟨ascii "b", by decide⟩, ⟨ascii "1", by decide⟩⟩, ⟨⟨ascii "a", by decide⟩, ⟨ascii "0", by decide⟩⟩,
    ⟨⟨ascii "c", by decide⟩, ⟨ascii "2", by decide⟩⟩]

/-- The parameters of a filter for two entries. -/
def wordsParams : BloomFilterHeader := ⟨32, 1, 12⟩

/-- The filter of the example is in order. -/
theorem wordsParams_ok : wordsParams.Ok := ⟨by decide, by decide, by decide, by decide⟩

/-- What is written for them. -/
def wordsLog : List Write := (writeDictionary 2 wordsParams wordsEntries).toOption.getD []

/-- What is written for the two words. -/
theorem writeDictionary_words : writeDictionary 2 wordsParams wordsEntries = .ok wordsLog := by
  obtain ⟨log, hlog⟩ := writeDictionary_isOk wordsParams_ok (by decide) (by decide)
    (show (accepted none wordsEntries).length = 2 by decide)
  rw [wordsLog, hlog]
  rfl

/-- The two words are found, in a dictionary in the middle of a file. -/
theorem lookupKey_of_accepted_words :
    ∃ d, (∀ heap, newForFd heap ([7] ++ applyWrites [] wordsLog ++ [9]) 1 = .ok d) ∧
      ∀ heap, ∀ e ∈ accepted none wordsEntries, ∃ value,
        Returns (fun fuel => lookupKey fuel heap d e.key) (.ok (some value)) ∧
        ⟨e.key, value⟩ ∈ accepted none wordsEntries ∧
        (((accepted none wordsEntries).map Entry.key).count e.key = 1 → value = e.value) :=
  lookupKey_of_accepted wordsParams_ok (by decide) (by decide) writeDictionary_words (by decide)
    (by decide +kernel)

/-- The finished dictionary as it is read: with its filter, or with the filter switched off. -/
def readAs (useFilter : Bool) (file : Bytes) : Bytes := if useFilter then file else withoutFilter file

/-- **Exactly when a key that was not accepted is not found**: if the filter rejects it, or the test of the
filter and the search for the block are survived and it is not one of the keys at which the last window of
the scan of its block finds the pairs of strings behind the block. -/
theorem lookupKey_none_iff (hparams : params.Ok) (hn : n < 2 ^ 31)
    (hrun : writeDictionary n params es = .ok log) (hsize : ∀ e ∈ accepted none es, e.size ≤ 8190)
    (useFilter : Bool) (hlt : (pre ++ readAs useFilter (applyWrites prev log) ++ post).length < 2 ^ 63) :
    ∃ d, (∀ heap, newForFd heap (pre ++ readAs useFilter (applyWrites prev log) ++ post) pre.length =
        .ok d) ∧
      ∀ heap key stack, (∀ e ∈ accepted none es, e.key ≠ key) →
        (Returns (fun fuel => lookupKey fuel heap d key stack) (.ok none) ↔
          Rejects stack d key ∨ Passes stack d (ceilSqrt n) (accepted none es) key ∧
            ∀ j, selectedBlock (ceilSqrt n) (accepted none es) key = some j →
              key ∉ strayKeysOf d (ceilSqrt n) (accepted none es) j) := by
  obtain ⟨hlen, hwritten, -⟩ := writeDictionary_spec hparams hn hrun prev
  have hblocks := ceilDiv_accepted_lt hn hlen
  cases useFilter with
  | true =>
      obtain ⟨d, hopen, hstored⟩ := stored_of_written hwritten hlt
      exact ⟨d, hopen, fun heap key stack hkey => hstored.returns_none_iff hblocks hsize heap hkey⟩
  | false =>
      obtain ⟨d, hopen, hstored, -⟩ := stored_of_withoutFilter hwritten hlt
      exact ⟨d, hopen, fun heap key stack hkey => hstored.returns_none_iff hblocks hsize heap hkey⟩

/-- Which keys are not found beside the two words. -/
theorem lookupKey_none_iff_words :
    ∃ d, (∀ heap, newForFd heap ([7] ++ readAs true (applyWrites [] wordsLog) ++ [9]) 1 = .ok d) ∧
      ∀ heap key stack, (∀ e ∈ accepted none wordsEntries, e.key ≠ key) →
        (Returns (fun fuel => lookupKey fuel heap d key stack) (.ok none) ↔
          Rejects stack d key ∨ Passes stack d (ceilSqrt 2) (accepted none wordsEntries) key ∧
            ∀ j, selectedBlock (ceilSqrt 2) (accepted none wordsEntries) key = some j →
              key ∉ strayKeysOf d (ceilSqrt 2) (accepted none wordsEntries) j) :=
  lookupKey_none_iff wordsParams_ok (by decide) writeDictionary_words (by decide) true
    (by decide +kernel)

/-- An entry with an empty key and an empty value. -/
def emptyEntry : Entry := ⟨.empty, .empty⟩

/-- The parameters of a filter for one entry. -/
def oneParams : BloomFilterHeader := ⟨32, 1, 23⟩

/-- The filter of the other example is in order. -/
theorem oneParams_ok : oneParams.Ok := ⟨by decide, by decide, by decide, by decide⟩

/-- What is written for the empty entry. -/
def emptyLog : List Write := (writeDictionary 1 oneParams [emptyEntry]).toOption.getD []

/-- What is written for one empty entry. -/
theorem writeDictionary_empty : writeDictionary 1 oneParams [emptyEntry] = .ok emptyLog := by
  obtain ⟨log, hlog⟩ := writeDictionary_isOk oneParams_ok (by decide) (by decide)
    (show (accepted none [emptyEntry]).length = 1 by decide)
  rw [emptyLog, hlog]
  rfl

/-- The number of blocks, 1, as a string. -/
def blockCountKey : CString := ⟨[1], by decide⟩

/-- Behind the only entry the scan takes the block table for another one: its number of blocks is a
key. -/
theorem blockCountKey_not_none :
    writeDictionary 1 oneParams [emptyEntry] = .ok emptyLog ∧
      (∀ e ∈ accepted none [emptyEntry], e.key ≠ blockCountKey) ∧
      ∃ d, (∀ heap, newForFd heap ([] ++ readAs false (applyWrites [] emptyLog) ++ []) 0 = .ok d) ∧
        ∀ heap, ¬ Returns (fun fuel => lookupKey fuel heap d blockCountKey) (.ok none) := by
  obtain ⟨hlen, hwritten, -⟩ := writeDictionary_spec oneParams_ok (by decide) writeDictionary_empty []
  obtain ⟨d, hopen, hstored, hfilter⟩ := stored_of_withoutFilter hwritten
    (show ([] ++ withoutFilter (applyWrites [] emptyLog) ++ []).length < 2 ^ 63 by decide +kernel)
  have hkey : ∀ e ∈ accepted none [emptyEntry], e.key ≠ blockCountKey := by decide
  refine ⟨writeDictionary_empty, hkey, d, hopen, fun heap h => ?_⟩
  rw [hstored.returns_none_iff (by decide) (by decide) heap hkey] at h
  rcases h with ⟨filter, hmem, -⟩ | ⟨-, hstray⟩
  · rw [hfilter] at hmem
    cases hmem
  · refine hstray 0 (by decide +kernel) ?_
    obtain ⟨hfd, hoff⟩ := eq_of_newForFd (hopen fun n => .replicate n 0)
    have hcstr : cstr ((chunkAt d 24).drop 2) = blockCountKey := by
      rw [cstr_drop_chunkAt, hfd, hoff]
      decide +kernel
    have hlong : (cstr ((chunkAt d 24).drop 2)).size + 1 < ((chunkAt d 24).drop 2).length := by
      rw [hcstr, List.length_drop, length_chunkAt]
      decide
    have hmem := cstr_mem_pairKeys hlong
    rw [hcstr] at hmem
    exact hmem

/-- The scan of a block ends, and every chunk starts behind the one before. -/
structure ScanEnds (d : EosShardDictionary) (key : CString) (block : DictionaryBlockTableEntry) :
    Prop where
  halts : ∃ r, Returns (fun fuel => dictionaryLookupKeyInBlock fuel d block key) r
  progress : ∀ offs offs',
    Iterates (scanStep d key ((block.offset + block.length) % 2 ^ 64)) block.offset offs →
      scanStep d key ((block.offset + block.length) % 2 ^ 64) offs = .inl offs' → offs < offs'

/-- The scan of a block ends exactly if the entries up to the key fit. -/
theorem Stored.scanEnds_iff {l : ℕ} {d : EosShardDictionary} (h : Stored params l es d) {j : ℕ}
    (hl : 0 < l) (hj : j * l < es.length) {key : CString} :
    ScanEnds d key (blockOf l es j) ↔ Fits key (blockEntries l es j) := by
  have hat := h.atEntries hl hj
  rw [← hat.exists_halts_iff (blockEntries_ne_nil hl hj)]
  constructor
  · rintro ⟨⟨r, hr⟩, -⟩
    exact ⟨r, (h.returns_inBlock_iff hl hj).mp hr⟩
  · rintro ⟨r, hr⟩
    refine ⟨⟨r, (h.returns_inBlock_iff hl hj).mpr hr⟩, fun offs offs' hreach hstep => ?_⟩
    rw [h.stop_mod hl hj] at hreach hstep
    exact hat.lt_of_iterates hr hreach hstep

/-- **Exactly when a lookup ends**: if it does not come to the scan of a block, or the entries of the block
that are in front of the first one with the key fit into a window, and that one's key does. The loops over
the block then read every chunk behind the one before. -/
theorem lookupKey_ends_iff (hparams : params.Ok) (hn : n < 2 ^ 31)
    (hrun : writeDictionary n params es = .ok log)
    (hlt : (pre ++ applyWrites prev log ++ post).length < 2 ^ 63) :
    ∃ d, (∀ heap, newForFd heap (pre ++ applyWrites prev log ++ post) pre.length = .ok d) ∧
      ∀ heap key stack,
        ((∃ r, Returns (fun fuel => dictionaryLookupKey fuel heap d key stack) r) ↔
          ∀ j, Scans stack d (ceilSqrt n) (accepted none es) key j →
            Fits key (blockEntries (ceilSqrt n) (accepted none es) j)) ∧
        ∀ block, dictionaryFindBlock heap d key stack = .ok (some block) →
          (ScanEnds d key block ↔ ∀ j, selectedBlock (ceilSqrt n) (accepted none es) key = some j →
            Fits key (blockEntries (ceilSqrt n) (accepted none es) j)) := by
  obtain ⟨hlen, hwritten, -⟩ := writeDictionary_spec hparams hn hrun prev
  have hblocks := ceilDiv_accepted_lt hn hlen
  obtain ⟨d, hopen, hstored⟩ := stored_of_written hwritten hlt
  refine ⟨d, hopen, fun heap key stack => ⟨hstored.exists_returns_iff hblocks heap, ?_⟩⟩
  intro block hblock
  have hsearch : Searchable stack (ceilSqrt n) (accepted none es) key := by
    by_contra hno
    cases (hstored.dictionaryFindBlock_eq_abort hblocks heap hno).symm.trans hblock
  rw [hstored.dictionaryFindBlock_eq hblocks heap hsearch] at hblock
  obtain ⟨j, hsel, rfl⟩ := Option.map_eq_some_iff.mp (Except.ok.inj hblock)
  obtain ⟨hl, hj⟩ := lt_of_lt_ceilDiv (lt_of_selectedBlock hsel)
  rw [hstored.scanEnds_iff hl hj]
  simp only [hsel, Option.some.injEq, forall_eq']

/-- Which lookups end beside the two words. -/
theorem lookupKey_ends_iff_words :
    ∃ d, (∀ heap, newForFd heap ([7] ++ applyWrites [] wordsLog ++ [9]) 1 = .ok d) ∧
      ∀ heap key stack,
        ((∃ r, Returns (fun fuel => dictionaryLookupKey fuel heap d key stack) r) ↔
          ∀ j, Scans stack d (ceilSqrt 2) (accepted none wordsEntries) key j →
            Fits key (blockEntries (ceilSqrt 2) (accepted none wordsEntries) j)) ∧
        ∀ block, dictionaryFindBlock heap d key stack = .ok (some block) →
          (ScanEnds d key block ↔
            ∀ j, selectedBlock (ceilSqrt 2) (accepted none wordsEntries) key = some j →
              Fits key (blockEntries (ceilSqrt 2) (accepted none wordsEntries) j)) :=
  lookupKey_ends_iff wordsParams_ok (by decide) writeDictionary_words (by decide +kernel)

/-- An entry whose value has the greatest size. -/
def longEntry : Entry :=
  ⟨⟨ascii "a", by decide⟩, ⟨List.replicate 8191 120, fun h => absurd (List.eq_of_mem_replicate h) (by decide)⟩⟩

/-- An entry behind it. -/
def shortEntry : Entry := ⟨⟨ascii "b", by decide⟩, ⟨ascii "x", by decide⟩⟩

/-- **A lookup that does not end**: the value in front of the key takes more than a window. -/
theorem shortEntry_not_returns :
    (∀ e ∈ [longEntry, shortEntry], e.key.size ≤ maxKeySize ∧ e.value.size ≤ maxKeySize) ∧
      ∃ log d, writeDictionary 2 wordsParams [longEntry, shortEntry] = .ok log ∧
        (∀ heap, newForFd heap ([] ++ applyWrites [] log ++ []) 0 = .ok d) ∧
        ∀ heap r, ¬ Returns (fun fuel => dictionaryLookupKey fuel heap d shortEntry.key) r := by
  have hkey : longEntry.key.size = 2 := rfl
  have hvalue : longEntry.value.size = 8192 := by
    rw [longEntry, CString.size, List.length_replicate]
  have haccepted : accepted none [longEntry, shortEntry] = [longEntry, shortEntry] := rfl
  have hsqrt : ceilSqrt 2 = 2 := by decide +kernel
  refine ⟨List.forall_mem_cons.mpr ⟨by rw [hkey, hvalue]; decide, by decide⟩, ?_⟩
  obtain ⟨log, hlog⟩ := writeDictionary_isOk wordsParams_ok (by decide) (by decide)
    (show (accepted none [longEntry, shortEntry]).length = 2 from rfl)
  obtain ⟨-, hwritten, hends⟩ := writeDictionary_spec wordsParams_ok (by decide) hlog []
  have hend : fileEnd wordsParams (ceilSqrt 2) (accepted none [longEntry, shortEntry]) < 2 ^ 63 := by
    have hlong : longEntry.size = 8194 := by rw [Entry.size, hkey, hvalue]
    rw [fileEnd, headerOf, entriesEnd, length_tableBytes, length_entriesBytes, haccepted, hsqrt,
      List.map_cons, List.sum_cons, hlong]
    decide
  have hlt : ([] ++ applyWrites [] log ++ []).length < 2 ^ 63 := by
    rw [List.nil_append, List.append_nil]
    exact (length_applyWrites_le (Nat.zero_le _) hends).trans_lt hend
  obtain ⟨d, hopen, hstored⟩ := stored_of_written hwritten hlt
  refine ⟨log, d, hlog, hopen, fun heap r hr => ?_⟩
  rw [haccepted, hsqrt] at hstored
  have hrej : ¬ Rejects ⊤ d shortEntry.key :=
    hstored.not_rejects_of_mem (by decide) (List.mem_cons_of_mem _ List.mem_cons_self)
  have hblock := (hstored.exists_returns_iff (by decide) heap).mp ⟨r, hr⟩ 0
    ⟨passes_top d (by decide) _ _, hrej, selectedBlock_of_lt (by decide) _ _⟩
  rw [show blockEntries 2 [longEntry, shortEntry] 0 = [longEntry, shortEntry] from rfl, Fits,
    if_neg (by decide), Entry.size, hkey, hvalue] at hblock
  exact absurd hblock.1 (by decide)

end written

end EosShard.Dictionary
