import EosShard.Dictionary.Blocks

/-!
# The block of a key

`dictionary_find_block` compares `key_size` bytes with what it finds at the start of a block, so the
bisection finds the last block whose first key is not greater as far as it is compared
(`dictionaryFindBlock_eq`). `key_size` is an `int`: below 2 GiB it has the size of the key, and the
comparison has the sign of that with the whole first key (`notAbove_iff`); a size that is cut to a negative
number ends the process, and so do arrays that do not fit on the stack (`ProbeFits`). In a dictionary of the writer a key that occurs at all occurs in
the block that is found (`exists_mem_blockEntries`), although the same key may start several blocks.

`findsBlock_iff` says when the block that is found is the right one.
-/

namespace EosShard.Dictionary

open EosShard.Found

/-! ## A table of blocks -/

/-- The dictionary has a table of these blocks, whose first keys ascend. -/
structure Indexed (d : EosShardDictionary) (blocks : List DictionaryBlockTableEntry)
    (firstKey : ℕ → CString) : Prop where
  length_lt : d.fd.length < 2 ^ 63
  nBlocks_lt : blocks.length < 2 ^ 16
  table : Holds d.fd (d.offset + d.header.blockTableStart)
    (le 2 blocks.length ++ (blocks.map DictionaryBlockTableEntry.toBytes).flatten)
  fields_lt : ∀ b ∈ blocks, b.offset < 2 ^ 64 ∧ b.length < 2 ^ 64
  firstKeys : ∀ j b, blocks[j]? = some b → Holds d.fd (d.offset + b.offset) (firstKey j).toBytes
  sorted : ∀ i j, i ≤ j → j < blocks.length → firstKey i ≤ firstKey j

/-- The entry of a table at an index is that of the list the table was written from. -/
theorem blockAt_eq {blocks : List DictionaryBlockTableEntry}
    (hlt : ∀ b ∈ blocks, b.offset < 2 ^ 64 ∧ b.length < 2 ^ 64) {i : ℕ}
    {b : DictionaryBlockTableEntry} (hi : blocks[i]? = some b) :
    blockAt (blocks.map DictionaryBlockTableEntry.toBytes).flatten i = b := by
  have hheld := (holds_self (blocks.map DictionaryBlockTableEntry.toBytes).flatten).piece
    (List.forall_mem_map.mpr fun b _ => b.length_toBytes)
    (by rw [List.getElem?_map, hi, Option.map_some])
  obtain ⟨ho, hl⟩ := hlt b (List.mem_of_getElem? hi)
  rw [blockAt, ← Nat.zero_add (i * _), hheld.slice_eq b.length_toBytes.symm,
    DictionaryBlockTableEntry.ofBytes_toBytes ho hl]

/-! ## One probe -/

/-- The first key of a block is not greater than the key, as far as it is compared. -/
def NotAbove (key firstKey : CString) : Prop :=
  firstKey.take (keySize key).toNat ≤ key.take (keySize key).toNat

/-- Whether a key is above a block can be decided. -/
instance (key firstKey : CString) : Decidable (NotAbove key firstKey) :=
  inferInstanceAs (Decidable (_ ≤ _))

/-- Below 2 GiB the size of a key is its size as an `int`. -/
theorem keySize_of_lt {key : CString} (h : key.size < 2 ^ 31) : keySize key = key.size := asInt32_of_lt h

/-- Below 2 GiB the size of a key is not negative. -/
theorem keySize_nonneg_of_lt {key : CString} (h : key.size < 2 ^ 31) : 0 ≤ keySize key := by
  rw [keySize_of_lt h]
  exact Int.natCast_nonneg _

/-- The probes of a table are survived: the size of the key is not negative as an `int`, and the table and
the array of a probe fit on the stack. -/
def ProbeFits (stack : ℕ∞) (nBlocks : ℕ) (key : CString) : Prop :=
  0 ≤ keySize key ∧
    (nBlocks * DictionaryBlockTableEntry.sizeof + (keySize key).toNat : ℕ) ≤ stack

/-- Whether a probe fits on the stack can be decided. -/
instance (stack : ℕ∞) (nBlocks : ℕ) (key : CString) : Decidable (ProbeFits stack nBlocks key) :=
  inferInstanceAs (Decidable (_ ∧ _))

/-- A key below 2 GiB takes its own size on the stack. -/
theorem probeFits_iff {key : CString} (h : key.size < 2 ^ 31) (stack : ℕ∞) (nBlocks : ℕ) :
    ProbeFits stack nBlocks key ↔
      (nBlocks * DictionaryBlockTableEntry.sizeof + key.size : ℕ) ≤ stack := by
  rw [ProbeFits, keySize_of_lt h, Int.toNat_natCast, and_iff_right (Int.natCast_nonneg _)]

/-- Without a limit of the stack a key below 2 GiB always fits. -/
theorem probeFits_top {key : CString} (h : key.size < 2 ^ 31) (nBlocks : ℕ) : ProbeFits ⊤ nBlocks key :=
  (probeFits_iff h ⊤ nBlocks).mpr le_top

/-- A key below 2 GiB is compared as a whole, although only as many bytes as it has are read. -/
theorem notAbove_iff {key : CString} (h : key.size < 2 ^ 31) (firstKey : CString) :
    NotAbove key firstKey ↔ firstKey ≤ key := by
  rw [NotAbove, keySize_of_lt h, Int.toNat_natCast, CString.take_of_size_le (le_refl key.size),
    CString.take_size_le_iff]

/-- A block that starts at the key or in front of it is not above the key. -/
theorem NotAbove.of_le {key firstKey : CString} (h : firstKey ≤ key) : NotAbove key firstKey :=
  CString.take_le_take h _

/-- If a block is not above a key, neither is one that starts in front of it. -/
theorem NotAbove.anti {key s t : CString} (h : NotAbove key t) (hst : s ≤ t) : NotAbove key s :=
  (CString.take_le_take hst _).trans h

/-- **One probe** compares `key_size` bytes with the first key. -/
theorem probe_eq {stack : ℕ∞} {d : EosShardDictionary} {blocks : Bytes} {key firstKey : CString}
    {nBlocks mid : ℕ}
    (hheld : Holds d.fd (d.offset + (blockAt blocks mid).offset) firstKey.toBytes)
    (hlt : d.fd.length < 2 ^ 63) (hlen : blocks.length = nBlocks * DictionaryBlockTableEntry.sizeof)
    (hfits : ProbeFits stack nBlocks key) :
    probe stack d blocks key mid = .ok (decide ¬ NotAbove key firstKey) := by
  have hle := hheld.le_length (CString.toBytes_ne_nil _)
  obtain ⟨pre, rest, hfd, hpre⟩ := (holds_iff_exists_append (CString.toBytes_ne_nil _)).mp hheld
  obtain ⟨n, hn⟩ : ∃ n, n = (keySize key).toNat := ⟨_, rfl⟩
  have hread : slice d.fd (d.offset + (blockAt blocks mid).offset) n =
      (firstKey.toBytes ++ rest).take n := by
    rw [hfd, List.append_assoc, slice_append_of_le hpre.le, hpre, Nat.sub_self, slice, List.drop_zero]
  have hcmp : strncmp n (overlay (List.replicate n 0) ((firstKey.toBytes ++ rest).take n)) key.toBytes =
      strncmp n (firstKey.toBytes ++ rest) key.toBytes := by
    -- the buffer has `n` bytes: what is behind the bytes that were read is still zero
    have hlen : ((firstKey.toBytes ++ rest).take n).length ≤ (List.replicate n (0 : UInt8)).length := by
      rw [List.length_replicate]
      exact List.length_take_le _ _
    rw [strncmp, List.take_of_length_le (by rw [length_overlay hlen, List.length_replicate]), overlay,
      List.drop_replicate, cstr_append_replicate_zero]
    rfl
  obtain ⟨hsize, hroom⟩ := hfits
  rw [← hn] at hroom
  rw [probe, if_neg (not_lt.mpr hsize)]
  simp only [hlen, ← hn, if_neg (not_lt.mpr hroom)]
  simp only [pread_eq (n := n) (show d.offset + (blockAt blocks mid).offset < 2 ^ 63 by omega), hread, hcmp,
    strncmp_gt_iff_take, NotAbove, ← hn, not_le]

/-- An array of a negative length, or without room on the stack, ends the process. -/
theorem probe_eq_abort {stack : ℕ∞} {d : EosShardDictionary} {blocks : Bytes} {key : CString} {nBlocks : ℕ}
    (hlen : blocks.length = nBlocks * DictionaryBlockTableEntry.sizeof)
    (hno : ¬ ProbeFits stack nBlocks key) (mid : ℕ) : probe stack d blocks key mid = .error .abort := by
  by_cases hsize : keySize key < 0
  · exact if_pos hsize
  · have hroom := not_le.mp fun hle => hno ⟨not_lt.mp hsize, hle⟩
    rw [probe, if_neg hsize]
    simp only [hlen, if_pos hroom]

/-! ## The bisection -/

/-- The length of a table in bytes. -/
theorem length_flatten_blocks (blocks : List DictionaryBlockTableEntry) :
    (blocks.map DictionaryBlockTableEntry.toBytes).flatten.length =
      blocks.length * DictionaryBlockTableEntry.sizeof :=
  length_flatten_map_of_forall fun b _ => b.length_toBytes

/-- Where the probes are survived the bisection comes to the last block whose first key is not greater. -/
theorem Indexed.bisect_eq {d : EosShardDictionary} {blocks : List DictionaryBlockTableEntry}
    {firstKey : ℕ → CString} (h : Indexed d blocks firstKey) {stack : ℕ∞} {key : CString}
    (hfits : ProbeFits stack blocks.length key) :
    ∃ k : ℕ, bisect (probe stack d (blocks.map DictionaryBlockTableEntry.toBytes).flatten key) 0
        ((blocks.length : ℤ) - 1) = .ok ((k : ℤ), (k : ℤ) - 1) ∧ k ≤ blocks.length ∧
      findLast (fun j => NotAbove key (firstKey j)) blocks.length =
        if k = 0 then none else some (k - 1) := by
  have hprobe : ∀ i, i < blocks.length →
      probe stack d (blocks.map DictionaryBlockTableEntry.toBytes).flatten key i =
        .ok (decide ¬ NotAbove key (firstKey i)) := fun i hi => by
    have hb := blockAt_eq h.fields_lt (List.getElem?_eq_getElem hi)
    refine probe_eq ?_ h.length_lt (length_flatten_blocks blocks) hfits
    rw [hb]
    exact h.firstKeys i _ (List.getElem?_eq_getElem hi)
  obtain ⟨k, hbisect, hk, hlast⟩ := Found.bisect_eq hprobe fun i j hij hj hi =>
    decide_eq_true fun hnot => of_decide_eq_true hi (hnot.anti (h.sorted i j hij hj))
  exact ⟨k, hbisect, hk, by simpa only [decide_not, Bool.not_not] using hlast⟩

/-- The search reads the table as it is. -/
theorem Indexed.dictionaryFindBlock_eq_bind {d : EosShardDictionary} {blocks : List DictionaryBlockTableEntry}
    {firstKey : ℕ → CString} (h : Indexed d blocks firstKey) (heap : Heap) (key : CString) (stack : ℕ∞) :
    dictionaryFindBlock heap d key stack =
      if stack < (blocks.length * DictionaryBlockTableEntry.sizeof : ℕ) then .error .abort
      else
        (bisect (probe stack d (blocks.map DictionaryBlockTableEntry.toBytes).flatten key) 0
          ((blocks.length : ℤ) - 1)).bind fun bounds =>
            if bounds.1 ≤ 0 ∨ bounds.2 > (blocks.length : ℤ) - 1 then .ok none
            else .ok (some (blockAt (blocks.map DictionaryBlockTableEntry.toBytes).flatten
              (bounds.1 - 1).toNat)) := by
  have hlen := h.table.le_length (by simp [le])
  have htable := h.table
  rw [Holds.append_iff, length_le] at htable
  obtain ⟨hcount, hblocks⟩ := htable
  rw [List.length_append, length_le] at hlen
  have hstart : d.offset + d.header.blockTableStart + 2 < 2 ^ 63 := by
    have := h.length_lt
    omega
  -- the structure has 12 bytes, of which at least the first two are in the file
  have hn : leNat (slice (overlay (heap 12).toList
      (slice d.fd (d.offset + d.header.blockTableStart) 12)) 0 2) = blocks.length := by
    have htwo : 2 ≤ (slice d.fd (d.offset + d.header.blockTableStart) 12).length := by
      rw [length_slice]
      omega
    rw [overlay, slice_append_left (by omega), slice_slice (by omega), Nat.add_zero]
    exact hcount.leNat_slice rfl (h.nBlocks_lt.trans_eq (by norm_num))
  have hflat := length_flatten_blocks blocks
  have hread : ∀ m, m = blocks.length →
      overlay (heap (m * DictionaryBlockTableEntry.sizeof)).toList
        (slice d.fd (d.offset + d.header.blockTableStart + 2)
          (blocks.length * DictionaryBlockTableEntry.sizeof)) =
        (blocks.map DictionaryBlockTableEntry.toBytes).flatten := by
    rintro m rfl
    rw [hblocks.slice_eq hflat.symm]
    exact overlay_full (by rw [List.Vector.toList_length, hflat])
  have hpread₁ := pread_eq (f := d.fd) (n := 12) (Nat.lt_of_succ_lt (Nat.lt_of_succ_lt hstart))
  have hpread₂ := pread_eq (f := d.fd) (n := blocks.length * DictionaryBlockTableEntry.sizeof) hstart
  simp only [dictionaryFindBlock, hpread₁, hn, hpread₂, hread _ hn]
  congr 1
  rcases bisect (probe stack d (blocks.map DictionaryBlockTableEntry.toBytes).flatten key) 0
    ((blocks.length : ℤ) - 1) with e | ⟨lo, hi⟩
  · rfl
  · rfl

/-- The first probe of a bisection that is not survived. -/
theorem bisect_eq_abort {stack : ℕ∞} {d : EosShardDictionary} {table : Bytes} {key : CString} {n : ℕ}
    (hlen : table.length = n * DictionaryBlockTableEntry.sizeof) (hno : ¬ ProbeFits stack n key)
    (hn : 0 < n) : bisect (probe stack d table key) 0 ((n : ℤ) - 1) = .error .abort := by
  have hle : (0 : ℤ) ≤ (n : ℤ) - 1 := by omega
  rw [bisect, dif_pos hle, probe_eq_abort hlen hno]

/-- **The block that is found** is the last one whose first key is not greater than the key, as far as it
is compared, and none is found exactly where there is no such block. -/
theorem dictionaryFindBlock_eq {d : EosShardDictionary} {blocks : List DictionaryBlockTableEntry}
    {firstKey : ℕ → CString} (h : Indexed d blocks firstKey) (heap : Heap) (key : CString) (stack : ℕ∞) :
    dictionaryFindBlock heap d key stack =
      if ProbeFits stack blocks.length key ∨ blocks = [] then
        .ok ((findLast (fun j => NotAbove key (firstKey j)) blocks.length).bind (blocks[·]?))
      else .error .abort := by
  rw [h.dictionaryFindBlock_eq_bind]
  by_cases hfits : ProbeFits stack blocks.length key
  · have hroom : (blocks.length * DictionaryBlockTableEntry.sizeof : ℕ) ≤ stack :=
      (Nat.cast_le.mpr (Nat.le_add_right _ _)).trans hfits.2
    obtain ⟨k, hbisect, hk, hlast⟩ := h.bisect_eq hfits
    rw [if_neg (not_lt.mpr hroom), if_pos (Or.inl hfits), hbisect, hlast, Except.bind]
    by_cases h0 : k = 0
    · rw [if_pos (Or.inl (by omega)), if_pos h0]
      rfl
    · obtain ⟨j, rfl⟩ := Nat.exists_eq_succ_of_ne_zero h0
      have hj := List.getElem?_eq_getElem (Nat.lt_of_succ_le hk)
      have hindex : ((((j + 1 : ℕ) : ℤ)) - 1).toNat = j := by omega
      rw [if_neg (by omega), if_neg h0, hindex, blockAt_eq h.fields_lt hj, Nat.succ_sub_one,
        Option.bind_some, hj]
  · by_cases hnil : blocks = []
    · rw [if_pos (Or.inr hnil), hnil, List.length_nil, Nat.zero_mul, Nat.cast_zero, if_neg not_lt_zero,
        bisect]
      rfl
    · rw [if_neg (not_or.mpr ⟨hfits, hnil⟩),
        bisect_eq_abort (length_flatten_blocks blocks) hfits (List.length_pos_iff.mpr hnil)]
      exact ite_self _

/-! ## The right block -/

/-- The search for the block of a key does what it is meant to do. -/
structure FindsBlock (stack : ℕ∞) (heap : Heap) (d : EosShardDictionary)
    (blocks : List DictionaryBlockTableEntry) (firstKey : ℕ → CString) (key : CString) : Prop where
  /-- The bisection ends, and no probe of it fails. -/
  halts : ∃ bounds, Halts (bisectStep (probe stack d (blocks.map DictionaryBlockTableEntry.toBytes).flatten
    key)) (0, (blocks.length : ℤ) - 1) (.ok bounds)
  /-- What is probed is in the table, and so is the block that is answered. -/
  inside : ∀ lo hi, Iterates (bisectStep (probe stack d
    (blocks.map DictionaryBlockTableEntry.toBytes).flatten key)) (0, (blocks.length : ℤ) - 1) (lo, hi) →
      (lo ≤ hi → 0 ≤ (lo + hi) / 2 ∧ (lo + hi) / 2 < blocks.length) ∧ 0 ≤ lo ∧ lo - 1 < blocks.length
  found : ∀ j b, blocks[j]? = some b → firstKey j ≤ key →
    (∀ i, j < i → i < blocks.length → key < firstKey i) →
      dictionaryFindBlock heap d key stack = .ok (some b)
  missing : dictionaryFindBlock heap d key stack = .ok none ↔ ∀ j, j < blocks.length → key < firstKey j

section finds

variable {stack : ℕ∞} {heap : Heap} {d : EosShardDictionary} {blocks : List DictionaryBlockTableEntry}
  {firstKey : ℕ → CString} {key : CString}

/-- All first keys are greater, or there is a last block whose first key is not. -/
theorem forall_lt_or_exists_last (blocks : List DictionaryBlockTableEntry) (firstKey : ℕ → CString)
    (key : CString) :
    (∀ j, j < blocks.length → key < firstKey j) ∨
      ∃ j b, blocks[j]? = some b ∧ firstKey j ≤ key ∧
        ∀ i, j < i → i < blocks.length → key < firstKey i := by
  rcases forall_not_or_exists_last (fun j => firstKey j ≤ key) blocks.length with hall | ⟨j, hj, hle, hlast⟩
  · exact Or.inl fun j hj => not_le.mp (hall j hj)
  · exact Or.inr ⟨j, _, List.getElem?_eq_getElem hj, hle, fun i hi hlt => not_le.mp (hlast i hi hlt)⟩

/-- The search ends with an answer. -/
theorem FindsBlock.exists_ok (h : FindsBlock stack heap d blocks firstKey key) :
    ∃ o, dictionaryFindBlock heap d key stack = .ok o := by
  rcases forall_lt_or_exists_last blocks firstKey key with hall | ⟨j, b, hb, hle, hlast⟩
  · exact ⟨none, h.missing.mpr hall⟩
  · exact ⟨some b, h.found j b hb hle hlast⟩

/-- The bisection comes to an end if its probes fit on the stack. -/
theorem Indexed.halts (h : Indexed d blocks firstKey)
    (hkey : ProbeFits stack blocks.length key ∨ blocks = []) :
    ∃ bounds, bisect (probe stack d (blocks.map DictionaryBlockTableEntry.toBytes).flatten key) 0
      ((blocks.length : ℤ) - 1) = .ok bounds := by
  rcases hkey with hfits | rfl
  · obtain ⟨k, hbisect, -⟩ := h.bisect_eq hfits
    exact ⟨_, hbisect⟩
  · exact ⟨_, by rw [bisect]; rfl⟩

/-- Two blocks of the table that are the same have one first key. -/
theorem Indexed.firstKey_eq (h : Indexed d blocks firstKey) {i j : ℕ} {b : DictionaryBlockTableEntry}
    (hi : blocks[i]? = some b) (hj : blocks[j]? = some b) : firstKey i = firstKey j := by
  rw [← cstr_slice_of_holds (h.firstKeys i b hi) (le_max_left _ (firstKey j).size),
    cstr_slice_of_holds (h.firstKeys j b hj) (le_max_right _ _)]

/-- No greater first key agrees with the key as far as it is compared. -/
def Separated (blocks : List DictionaryBlockTableEntry) (firstKey : ℕ → CString) (key : CString) : Prop :=
  ∀ j, j < blocks.length → key < firstKey j → ¬ NotAbove key (firstKey j)

/-- For a key that the cut comparison does not confuse, the last block that is not above it is the last
one that starts at it or in front of it. -/
theorem Separated.findLast_eq (h : Separated blocks firstKey key) :
    findLast (fun j => NotAbove key (firstKey j)) blocks.length =
      findLast (fun j => firstKey j ≤ key) blocks.length := by
  refine findLast_congr fun j hj => decide_eq_decide.mpr ⟨fun hna => ?_, NotAbove.of_le⟩
  exact not_lt.mp fun hlt => h j hj hlt hna

/-- **The right block is found** if the first keys are told apart. -/
theorem Indexed.findsBlock (h : Indexed d blocks firstKey) (heap : Heap)
    (hkey : blocks = [] ∨ ProbeFits stack blocks.length key ∧ Separated blocks firstKey key) :
    FindsBlock stack heap d blocks firstKey key := by
  have hfits : ProbeFits stack blocks.length key ∨ blocks = [] := hkey.symm.imp_left And.left
  have hsep : Separated blocks firstKey key := by
    rcases hkey with rfl | ⟨-, hsep⟩
    · exact fun j hj => absurd hj (Nat.not_lt_zero j)
    · exact hsep
  have hfind := dictionaryFindBlock_eq h heap key stack
  rw [if_pos hfits, hsep.findLast_eq] at hfind
  refine ⟨?_, fun lo hi hreach => ?_, fun j b hj hle hbehind => ?_, ?_⟩
  · obtain ⟨bounds, hbounds⟩ := h.halts hfits
    exact ⟨bounds, hbounds ▸ halts_bisectStep _ _ _⟩
  · obtain ⟨hlo, hle, hhi⟩ := inside_of_iterates_bisectStep hreach
    simp only at hlo hle hhi
    exact ⟨fun hlohi => ⟨by omega, by omega⟩, hlo, by omega⟩
  · have hlast : findLast (fun j => firstKey j ≤ key) blocks.length = some j :=
      findLast_decide_eq_some_iff.mpr ⟨(List.getElem?_eq_some_iff.mp hj).1, hle,
        fun i hi hlt => not_le.mpr (hbehind i hi hlt)⟩
    rw [hfind, hlast, Option.bind_some, hj]
  · rw [hfind]
    rcases hlast : findLast (fun j => firstKey j ≤ key) blocks.length with _ | j
    · rw [findLast_decide_eq_none_iff] at hlast
      exact iff_of_true rfl fun j hj => not_le.mp (hlast j hj)
    · obtain ⟨hj, hle, -⟩ := findLast_decide_eq_some_iff.mp hlast
      rw [Option.bind_some, List.getElem?_eq_getElem hj]
      exact iff_of_false (by simp) fun hall => absurd hle (not_le.mpr (hall j hj))

/-- A greater first key that agrees with the key as far as it is compared misleads the search. -/
theorem Indexed.separated (h : Indexed d blocks firstKey) (hfits : ProbeFits stack blocks.length key)
    (hfinds : FindsBlock stack heap d blocks firstKey key) : Separated blocks firstKey key := by
  intro j hj hlt hna
  have hfind := dictionaryFindBlock_eq h heap key stack
  rw [if_pos (Or.inl hfits)] at hfind
  rcases hsel : findLast (fun j => NotAbove key (firstKey j)) blocks.length with _ | k
  · exact findLast_decide_eq_none_iff.mp hsel j hj hna
  · obtain ⟨hk, -, hbehind⟩ := findLast_decide_eq_some_iff.mp hsel
    -- the block that is found starts with a greater key as well
    have hjk : j ≤ k := not_lt.mp fun hkj => hbehind j hkj hj hna
    have hgreater : key < firstKey k := hlt.trans_le (h.sorted j k hjk hk)
    have hblock := List.getElem?_eq_getElem hk
    rw [hsel, Option.bind_some, hblock] at hfind
    rcases forall_lt_or_exists_last blocks firstKey key with hall | ⟨i, b, hb, hle, hlast⟩
    · rw [hfinds.missing.mpr hall] at hfind
      cases hfind
    · rw [hfinds.found i b hb hle hlast] at hfind
      have hsame : b = blocks[k] := Option.some.inj (Except.ok.inj hfind)
      have hkeys := h.firstKey_eq hb (hblock.trans (congrArg some hsame.symm))
      exact absurd hle (not_le.mpr (hkeys ▸ hgreater))

/-- A search in a table that is not empty, for a key whose probes are not survived. -/
theorem Indexed.not_findsBlock (h : Indexed d blocks firstKey) (hne : blocks ≠ [])
    (hkey : ¬ ProbeFits stack blocks.length key) (heap : Heap) :
    dictionaryFindBlock heap d key stack = .error .abort ∧ ¬ FindsBlock stack heap d blocks firstKey key := by
  have habort : dictionaryFindBlock heap d key stack = .error .abort := by
    rw [dictionaryFindBlock_eq h, if_neg (not_or.mpr ⟨hkey, hne⟩)]
  refine ⟨habort, fun hfinds => ?_⟩
  obtain ⟨o, ho⟩ := hfinds.exists_ok
  rw [habort] at ho
  cases ho

/-- **Exactly when the search finds the right block**: if the table is empty, or if the probes are survived
and no greater first key agrees with the key as far as it is compared. It is so for every key below 2 GiB
that fits on the stack behind the table. -/
theorem findsBlock_iff (h : Indexed d blocks firstKey) (heap : Heap) (key : CString) (stack : ℕ∞) :
    (FindsBlock stack heap d blocks firstKey key ↔
      blocks = [] ∨ ProbeFits stack blocks.length key ∧ Separated blocks firstKey key) ∧
      (key.size < 2 ^ 31 →
        (blocks.length * DictionaryBlockTableEntry.sizeof + key.size : ℕ) ≤ stack →
          FindsBlock stack heap d blocks firstKey key) := by
  refine ⟨⟨fun hfinds => ?_, h.findsBlock heap⟩, fun hlt hroom => h.findsBlock heap (Or.inr ⟨?_, ?_⟩)⟩
  · by_cases hfits : ProbeFits stack blocks.length key
    · exact Or.inr ⟨hfits, h.separated hfits hfinds⟩
    · left
      by_contra hne
      exact (h.not_findsBlock hne hfits heap).2 hfinds
  · exact (probeFits_iff hlt stack _).mpr hroom
  · exact fun j _ hgreater hna => absurd ((notAbove_iff hlt _).mp hna) (not_le.mpr hgreater)

end finds

/-- A key of `n` times the same letter. -/
def letterKey (n : ℕ) : CString :=
  ⟨List.replicate n 107, fun h => absurd (List.eq_of_mem_replicate h) (by decide)⟩

/-- The size of a key of one letter, repeated. -/
theorem size_letterKey (n : ℕ) : (letterKey n).size = n + 1 := congrArg (· + 1) List.length_replicate

/-- The header of a dictionary whose four entries are four blocks. -/
def fourHeader : DictionaryHeader := ⟨magic, 42, 0⟩

/-- The blocks. Two of them start with the same key. -/
def fourBlocks : List DictionaryBlockTableEntry := [⟨24, 3⟩, ⟨27, 4⟩, ⟨31, 4⟩, ⟨35, 7⟩]

/-- Their first keys, which have 1, 2, 2 and 5 bytes. -/
def fourKeys (j : ℕ) : CString := [letterKey 0, letterKey 1, letterKey 1, letterKey 4].getD j .empty

/-- The dictionary, without a filter. -/
def fourDictionary : EosShardDictionary :=
  ⟨fourHeader.toBytes ++ ((letterKey 0).toBytes ++ (letterKey 1).toBytes ++
      ((letterKey 1).toBytes ++ (letterKey 1).toBytes ++ ((letterKey 1).toBytes ++ (letterKey 1).toBytes)) ++
      ((letterKey 4).toBytes ++ (letterKey 1).toBytes)) ++
      (le 2 4 ++ (fourBlocks.map DictionaryBlockTableEntry.toBytes).flatten), 0, fourHeader, none⟩

/-- The example is a table over its keys. -/
theorem indexed_four : Indexed fourDictionary fourBlocks fourKeys where
  length_lt := by
    have hlen : fourDictionary.fd.length = 108 := by decide
    rw [hlen]
    norm_num
  nBlocks_lt := by decide
  table := by decide
  fields_lt := by decide
  firstKeys j b hb := by
    have hall : ∀ j < 4, Holds fourDictionary.fd
        (fourDictionary.offset + (fourBlocks.getD j ⟨0, 0⟩).offset) (fourKeys j).toBytes := by decide
    have h := hall j (List.getElem?_eq_some_iff.mp hb).1
    rwa [List.getD_eq_getElem?_getD, hb, Option.getD_some] at h
  sorted i j hij hj := by
    have hall : ∀ j < 4, ∀ i < 4, i ≤ j → fourKeys i ≤ fourKeys j := by decide
    exact hall j hj i (hij.trans_lt hj) hij

/-- A key between the second pair of first keys: the later one of the two equal blocks is found, on a stack
of 68 bytes. -/
theorem findsBlock_iff_four :
    FindsBlock 68 (fun n => .replicate n 0) fourDictionary fourBlocks fourKeys (letterKey 3) ∧
      dictionaryFindBlock (fun n => .replicate n 0) fourDictionary (letterKey 3) 68 =
        .ok (some ⟨31, 4⟩) := by
  have hfinds := (findsBlock_iff indexed_four (fun n => .replicate n 0) (letterKey 3) 68).2
    (by decide) (by decide)
  refine ⟨hfinds, hfinds.found 2 _ (by decide) (by decide) ?_⟩
  intro i hi hlt
  have hlt : i < 4 := hlt
  interval_cases i
  decide

/-- With 2 ^ 31 - 1 characters and their NUL the size is a negative `int`, and the search is not survived on
any stack. -/
theorem longKey_not_findsBlock :
    Indexed fourDictionary fourBlocks fourKeys ∧ ∀ stack heap,
      dictionaryFindBlock heap fourDictionary (letterKey (2 ^ 31 - 1)) stack = .error .abort ∧
      ¬ FindsBlock stack heap fourDictionary fourBlocks fourKeys (letterKey (2 ^ 31 - 1)) := by
  refine ⟨indexed_four, fun stack heap => indexed_four.not_findsBlock (List.cons_ne_nil _ _) ?_ heap⟩
  rintro ⟨hsize, -⟩
  have hneg : keySize (letterKey (2 ^ 31 - 1)) < (0 : ℕ) := by
    rw [keySize, size_letterKey, Nat.sub_add_cancel Nat.one_le_two_pow, asInt32_lt_iff]
    exact Or.inr (by norm_num)
  exact absurd hsize (not_le.mpr hneg)

/-! ## The blocks of the writer -/

/-- The key of the first entry of block `j`. -/
def firstKey (l : ℕ) (es : List Entry) (j : ℕ) : CString :=
  (es.getD (j * l) ⟨.empty, .empty⟩).key

/-- The block that is searched: the last one whose first key is not greater, as far as it is compared.
None is searched for a key of negative size. -/
def selectedBlock (l : ℕ) (es : List Entry) (key : CString) : Option ℕ :=
  if 0 ≤ keySize key then findLast (fun j => NotAbove key (firstKey l es j)) (ceilDiv es.length l)
  else none

/-- The search for the block is survived. -/
def Searchable (stack : ℕ∞) (l : ℕ) (es : List Entry) (key : CString) : Prop :=
  ProbeFits stack (ceilDiv es.length l) key ∨ ceilDiv es.length l = 0

/-- Without a limit of the stack every key below 2 GiB can be searched. -/
theorem searchable_top {key : CString} (h : key.size < 2 ^ 31) (l : ℕ) (es : List Entry) :
    Searchable ⊤ l es key := Or.inl (probeFits_top h _)

/-- A key below 2 GiB selects the last block that starts at it or in front of it. -/
theorem selectedBlock_of_lt {key : CString} (h : key.size < 2 ^ 31) (l : ℕ) (es : List Entry) :
    selectedBlock l es key = findLast (fun j => firstKey l es j ≤ key) (ceilDiv es.length l) := by
  rw [selectedBlock, if_pos (keySize_nonneg_of_lt h)]
  simp only [notAbove_iff h]

/-- The block that is selected is one of the table. -/
theorem lt_of_selectedBlock {l : ℕ} {es : List Entry} {key : CString} {j : ℕ}
    (hsel : selectedBlock l es key = some j) : j < ceilDiv es.length l := by
  rw [selectedBlock] at hsel
  split at hsel
  · exact (findLast_eq_some_iff.mp hsel).1
  · cases hsel

/-- A block starts with the key of its first entry. -/
theorem firstKey_eq {l : ℕ} {es : List Entry} {j : ℕ} (hj : j * l < es.length) :
    firstKey l es j = es[j * l].key := by
  rw [firstKey, List.getD_eq_getElem _ _ hj]

/-- A block that is in the table has an entry. -/
theorem lt_of_lt_ceilDiv {n l j : ℕ} (h : j < ceilDiv n l) : 0 < l ∧ j * l < n := by
  rcases Nat.eq_zero_or_pos l with rfl | hl
  · rw [ceilDiv, Nat.div_zero] at h
    exact absurd h (Nat.not_lt_zero j)
  · exact ⟨hl, (lt_ceilDiv_iff hl).mp h⟩

section stored

variable {params : BloomFilterHeader} {l : ℕ} {es : List Entry} {d : EosShardDictionary}

/-- In a sorted list of entries the keys grow with the index. -/
theorem sorted_getElem (h : es.Pairwise fun e e' => e.key ≤ e'.key) {i j : ℕ} (hij : i ≤ j)
    (hi : i < es.length) (hj : j < es.length) : es[i].key ≤ es[j].key := by
  rcases Nat.lt_or_eq_of_le hij with hij | rfl
  · exact List.pairwise_iff_getElem.mp h i j hi hj hij
  · exact le_refl _

/-- The entries from the `i`-th on lie in the file. -/
theorem Stored.holds_drop (h : Stored params l es d) (i : ℕ) :
    Holds d.fd (d.offset + entryStart es i) (entriesBytes (es.drop i)) := by
  have hall := h.entries
  rw [← List.take_append_drop i es, entriesBytes_append, Holds.append_iff] at hall
  rw [entryStart, ← Nat.add_assoc]
  exact hall.2

/-- A block lies in the file. -/
theorem Stored.holds_block (h : Stored params l es d) (j : ℕ) :
    Holds d.fd (d.offset + (blockOf l es j).offset) (entriesBytes (blockEntries l es j)) := by
  have hdrop := h.holds_drop (j * l)
  rw [← List.take_append_drop l (es.drop (j * l)), entriesBytes_append, Holds.append_iff] at hdrop
  exact hdrop.1

/-- The entries of a block, with the first one in front. -/
theorem blockEntries_eq_cons {j : ℕ} (hl : 0 < l) (hj : j * l < es.length) :
    blockEntries l es j = es[j * l] :: (es.drop (j * l + 1)).take (l - 1) := by
  obtain ⟨l, rfl⟩ := Nat.exists_eq_succ_of_ne_zero hl.ne'
  rw [blockEntries, List.drop_eq_getElem_cons hj, List.take_succ_cons, Nat.succ_sub_one]

/-- A block that is in the table is not empty. -/
theorem blockEntries_ne_nil {j : ℕ} (hl : 0 < l) (hj : j * l < es.length) :
    blockEntries l es j ≠ [] := by
  rw [blockEntries_eq_cons hl hj]
  exact List.cons_ne_nil _ _

/-- A block ends within `off_t`. -/
theorem Stored.blockOf_lt (h : Stored params l es d) {j : ℕ} (hl : 0 < l) (hj : j * l < es.length) :
    d.offset + (blockOf l es j).offset + (blockOf l es j).length < 2 ^ 63 := by
  have hne := entriesBytes_ne_nil (blockEntries_ne_nil hl hj)
  exact ((h.holds_block j).le_length hne).trans_lt h.length_lt

/-- The table of a stored dictionary is one over the first keys of its blocks. -/
theorem Stored.indexed (h : Stored params l es d) (hn : ceilDiv es.length l < 2 ^ 16) :
    Indexed d ((List.range (ceilDiv es.length l)).map (blockOf l es)) (firstKey l es) where
  length_lt := h.length_lt
  nBlocks_lt := by rwa [List.length_map, List.length_range]
  table := by
    rw [List.length_map, List.length_range, List.map_map]
    exact h.table
  fields_lt := by
    refine List.forall_mem_map.mpr fun j hj => ?_
    obtain ⟨hl, hlt⟩ := lt_of_lt_ceilDiv (List.mem_range.mp hj)
    have := h.blockOf_lt hl hlt
    omega
  firstKeys j b hb := by
    obtain ⟨hj, rfl⟩ := getElem?_map_range hb
    have hlt := (lt_of_lt_ceilDiv hj).2
    have hdrop := h.holds_drop (j * l)
    rw [List.drop_eq_getElem_cons hlt, entriesBytes_cons, Entry.toBytes, List.append_assoc,
      Holds.append_iff] at hdrop
    rw [firstKey_eq hlt]
    exact hdrop.1
  sorted i j hij hj := by
    rw [List.length_map, List.length_range] at hj
    have hlt := (lt_of_lt_ceilDiv hj).2
    have hle : i * l ≤ j * l := Nat.mul_le_mul_right l hij
    rw [firstKey_eq hlt, firstKey_eq (hle.trans_lt hlt)]
    exact sorted_getElem h.sorted hle _ hlt

/-- **The block that is searched.** -/
theorem Stored.dictionaryFindBlock_eq (h : Stored params l es d) (hn : ceilDiv es.length l < 2 ^ 16)
    (heap : Heap) {stack : ℕ∞} {key : CString} (hkey : Searchable stack l es key) :
    dictionaryFindBlock heap d key stack = .ok ((selectedBlock l es key).map (blockOf l es)) := by
  have hfind := Dictionary.dictionaryFindBlock_eq (h.indexed hn) heap key stack
  rw [List.length_map, List.length_range] at hfind
  by_cases hfits : ProbeFits stack (ceilDiv es.length l) key
  · rw [hfind, if_pos (Or.inl hfits), selectedBlock, if_pos hfits.1]
    congr 1
    rcases hsel : findLast (fun j => NotAbove key (firstKey l es j)) (ceilDiv es.length l) with _ | j
    · rfl
    · have hj := (findLast_eq_some_iff.mp hsel).1
      rw [Option.bind_some, Option.map_some, List.getElem?_map, List.getElem?_range hj, Option.map_some]
  · have hnone := hkey.resolve_left hfits
    have hsel : selectedBlock l es key = none := by
      rw [selectedBlock, hnone]
      exact ite_self _
    rw [hfind, hnone, hsel, List.range_zero, List.map_nil, if_pos (Or.inr rfl)]
    rfl

/-- The first probe of a search that is not survived. -/
theorem Stored.dictionaryFindBlock_eq_abort (h : Stored params l es d) (hn : ceilDiv es.length l < 2 ^ 16)
    (heap : Heap) {stack : ℕ∞} {key : CString} (hkey : ¬ Searchable stack l es key) :
    dictionaryFindBlock heap d key stack = .error .abort := by
  obtain ⟨hfits, hblocks⟩ := not_or.mp hkey
  rw [Dictionary.dictionaryFindBlock_eq (h.indexed hn), List.length_map, List.length_range, if_neg]
  rintro (hfits' | hnil)
  · exact hfits hfits'
  · exact hblocks (List.range_eq_nil.mp (List.map_eq_nil_iff.mp hnil))

end stored

/-- **A key that occurs, occurs in the selected block.** -/
theorem exists_mem_blockEntries {l : ℕ} {es : List Entry} (hl : 0 < l)
    (hsorted : es.Pairwise fun e e' => e.key ≤ e'.key) {e : Entry} (he : e ∈ es)
    (hsize : e.key.size < 2 ^ 31) :
    ∃ j, selectedBlock l es e.key = some j ∧ ∃ e' ∈ blockEntries l es j, e'.key = e.key := by
  obtain ⟨i, hi, rfl⟩ := List.mem_iff_getElem.mp he
  have hmem : ∀ {j k : ℕ} (hk : k < es.length), j * l ≤ k → k < j * l + l →
      es[k] ∈ blockEntries l es j := fun {j k} hk hlo hhi => by
    rw [blockEntries, List.mem_iff_getElem?]
    refine ⟨k - j * l, ?_⟩
    rw [List.getElem?_take_of_lt (by omega), List.getElem?_drop, Nat.add_sub_cancel' hlo,
      List.getElem?_eq_getElem hk]
  have hlo : i / l * l ≤ i := Nat.div_mul_le_self i l
  have hhi : i < i / l * l + l := by
    have := Nat.lt_div_mul_add (a := i) hl
    omega
  have hfirst : firstKey l es (i / l) ≤ es[i].key := by
    rw [firstKey_eq (hlo.trans_lt hi)]
    exact sorted_getElem hsorted hlo _ hi
  have hlt : i / l < ceilDiv es.length l := (lt_ceilDiv_iff hl).mpr (hlo.trans_lt hi)
  rw [selectedBlock_of_lt hsize]
  rcases hsel : findLast (fun j => firstKey l es j ≤ es[i].key) (ceilDiv es.length l) with _ | j
  · exact absurd hfirst (findLast_decide_eq_none_iff.mp hsel _ hlt)
  · obtain ⟨hj, hle, hlast⟩ := findLast_decide_eq_some_iff.mp hsel
    have hjl := (lt_ceilDiv_iff hl).mp hj
    refine ⟨j, rfl, ?_⟩
    rcases lt_trichotomy (i / l) j with hlt' | heq | hgt
    · -- the key goes on up to the start of the selected block
      have hij : i ≤ j * l := by
        have := Nat.mul_le_mul_right l (Nat.succ_le_of_lt hlt')
        rw [Nat.succ_mul] at this
        omega
      refine ⟨es[j * l], hmem hjl (le_refl _) (by omega), le_antisymm ?_ ?_⟩
      · rw [← firstKey_eq hjl]
        exact hle
      · exact sorted_getElem hsorted hij _ hjl
    · exact ⟨es[i], hmem hi (heq ▸ hlo) (heq ▸ hhi), rfl⟩
    · exact absurd hfirst (hlast _ hgt hlt)

end EosShard.Dictionary
