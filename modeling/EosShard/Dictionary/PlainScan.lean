import EosShard.Dictionary.Lookup

/-!
# The scan in windows and the plain scan

`dictionary_lookup_key_in_block` moves an offset in the file and a pointer into its chunk together, string by
string, and sets the offset back to the key when the pointer leaves the chunk. `innerStep` is one turn of this
loop, with the two `ADVANCE_CHUNK`s, and `lookupStep` one turn of either loop.

* `halts_innerStep`: **the offset and the pointer stay together**, so the inner loop is left where `scanChunk`
  says. `halts_lookupStep_iff`: the two loops end exactly where `scanStep` does.
* `scanWhole` scans the bytes of a block without windows, and `scanWhole_entriesBytes` says what it finds in
  entries: the value of the first one with the key.
* `lookupKeyInBlock_eq_scanWhole`: **on a key of the block the two scans agree**, wherever the windows cut the
  entries.
-/

namespace EosShard.Dictionary

open EosShard.Found

/-! ## The inner loop, statement by statement -/

/-- Where the inner loop is: in the file, and in its chunk. -/
structure Cursor where
  offs : ℕ
  str : ℕ

/-- `ADVANCE_CHUNK`: step over the string at the cursor. If this leaves the chunk the loop is left, with the
offset back at the key. -/
def advanceChunk (chunk : Bytes) (keyOffs : ℕ) (c : Cursor) : Cursor ⊕ ℕ :=
  let size := (cstr (chunk.drop c.str)).size
  let next : Cursor := ⟨(c.offs + size) % 2 ^ 64, c.str + size⟩
  if chunkSize ≤ next.str then .inr keyOffs else .inl next

/-- One turn of the inner loop. It is left with the offset of the next chunk, or with that of a value. -/
def innerStep (chunk : Bytes) (key : CString) (c : Cursor) : Cursor ⊕ (ℕ ⊕ ℕ) :=
  match advanceChunk chunk c.offs c with
  | .inr offs => .inr (.inl offs)
  | .inl value =>
      if cstr (chunk.drop c.str) = key then .inr (.inr value.offs)
      else
        match advanceChunk chunk c.offs value with
        | .inr offs => .inr (.inl offs)
        | .inl next => .inl next

/-- The cursor at a place of the chunk that was read at `offs`. -/
def cursorAt (offs str : ℕ) : Cursor := ⟨(offs + str) % 2 ^ 64, str⟩

section chunk

variable {chunk : Bytes} {offs str : ℕ}

/-- A string that the chunk ends in sends the scan back to the key. -/
theorem advanceChunk_of_le (h : chunkSize ≤ str + (cstr (chunk.drop str)).size) (keyOffs : ℕ) :
    advanceChunk chunk keyOffs (cursorAt offs str) = .inr keyOffs := if_pos h

/-- A string that ends within the chunk is passed. -/
theorem advanceChunk_of_lt (h : ¬ chunkSize ≤ str + (cstr (chunk.drop str)).size) (keyOffs : ℕ) :
    advanceChunk chunk keyOffs (cursorAt offs str) =
      .inl (cursorAt offs (str + (cstr (chunk.drop str)).size)) := by
  have hnext : cursorAt offs (str + (cstr (chunk.drop str)).size) =
      ⟨((cursorAt offs str).offs + (cstr (chunk.drop str)).size) % 2 ^ 64,
        str + (cstr (chunk.drop str)).size⟩ := by
    rw [cursorAt, cursorAt, Nat.mod_add_mod, Nat.add_assoc]
  rw [hnext]
  exact if_neg h

/-- **The inner loop** is left where `scanChunk` says, with the offset of that place. -/
theorem halts_innerStep (chunk : Bytes) (key : CString) (offs str : ℕ) :
    Halts (innerStep chunk key) (cursorAt offs str)
      ((scanChunk chunk key str).map (fun s => (offs + s) % 2 ^ 64) fun s => (offs + s) % 2 ^ 64) := by
  fun_induction scanChunk chunk key str with
  | case1 str chunkKey value hcut =>
      refine halts_of_inr ?_
      rw [innerStep, advanceChunk_of_le hcut]
      rfl
  | case2 str chunkKey value hcut heq =>
      refine halts_of_inr ?_
      rw [innerStep, advanceChunk_of_lt hcut]
      exact if_pos heq
  | case3 str chunkKey value hcut hne next hcut' =>
      refine halts_of_inr ?_
      rw [innerStep, advanceChunk_of_lt hcut]
      show (if chunkKey = key then _ else _) = _
      rw [if_neg hne, advanceChunk_of_le hcut']
      rfl
  | case4 str chunkKey value hcut hne next hcut' ih =>
      have hstep : innerStep chunk key (cursorAt offs str) = .inl (cursorAt offs next) := by
        rw [innerStep, advanceChunk_of_lt hcut]
        show (if chunkKey = key then _ else _) = _
        rw [if_neg hne, advanceChunk_of_lt hcut']
      exact (halts_iff_of_inl hstep).mpr ih

end chunk

/-- Where the scan of a block is: in front of a chunk, or inside one. -/
inductive ScanState
  | outer (offs : ℕ)
  | inner (chunk : Bytes) (c : Cursor)

/-- One turn of either loop.
Source: `eos-shard-dictionary.c`, `dictionary_lookup_key_in_block`. -/
def lookupStep (dictionary : EosShardDictionary) (key : CString) (stop : ℕ) :
    ScanState → ScanState ⊕ Result ℕ
  | .outer offs =>
      if offs < stop then
        match pread dictionary.fd chunkSize (dictionary.offset + offs) with
        | none => .inr (.error dictionaryCorrupt)
        | some bs => .inl (.inner (overlay (List.replicate maxKeySize 0) bs) ⟨offs, 0⟩)
      else .inr (.ok 0)
  | .inner chunk c =>
      match innerStep chunk key c with
      | .inl next => .inl (.inner chunk next)
      | .inr (.inl offs) => .inl (.outer offs)
      | .inr (.inr offs) => .inr (.ok offs)

section loops

variable {d : EosShardDictionary} {key : CString} {stop offs : ℕ} {r : Result ℕ}

/-- The inner loop runs inside the two loops, to its last turn. -/
theorem exists_iterates_inner (d : EosShardDictionary) (stop : ℕ) {chunk : Bytes} {c : Cursor} {x : ℕ ⊕ ℕ}
    (h : Halts (innerStep chunk key) c x) :
    ∃ last, Iterates (lookupStep d key stop) (.inner chunk c) (.inner chunk last) ∧
      innerStep chunk key last = .inr x := by
  obtain ⟨last, hlast, hx⟩ := h.exists_iterates
  refine ⟨last, hlast.map (ScanState.inner chunk) fun c c' hc => ?_, hx⟩
  simp only [lookupStep, hc]

/-- Left with an offset, it hands over to the outer loop. -/
theorem halts_inner_of_inl {chunk : Bytes} {c : Cursor} (h : Halts (innerStep chunk key) c (.inl offs)) :
    Halts (lookupStep d key stop) (.inner chunk c) r ↔ Halts (lookupStep d key stop) (.outer offs) r := by
  obtain ⟨last, hlast, hx⟩ := exists_iterates_inner d stop h
  rw [hlast.halts_iff]
  exact halts_iff_of_inl (by simp only [lookupStep, hx])

/-- Left with a value, it ends the search. -/
theorem halts_inner_of_inr {chunk : Bytes} {c : Cursor} (h : Halts (innerStep chunk key) c (.inr offs)) :
    Halts (lookupStep d key stop) (.inner chunk c) r ↔ r = .ok offs := by
  obtain ⟨last, hlast, hx⟩ := exists_iterates_inner d stop h
  rw [hlast.halts_iff]
  exact halts_iff_of_inr (by simp only [lookupStep, hx])

/-- A chunk that is read is entered at its first string, and the inner loop is left where the scan by
chunks says. -/
theorem exists_inner_of_pread (key : CString) {bs : Bytes} (hlt : offs < 2 ^ 64) (hin : offs < stop)
    (hread : pread d.fd chunkSize (d.offset + offs) = some bs) :
    ∃ chunk c x, lookupStep d key stop (.outer offs) = .inl (.inner chunk c) ∧
      Halts (innerStep chunk key) c x ∧ scanStep d key stop offs = x.map id Except.ok := by
  have hcursor : cursorAt offs 0 = ⟨offs, 0⟩ := by rw [cursorAt, Nat.add_zero, Nat.mod_eq_of_lt hlt]
  refine ⟨_, _, _, ?_, halts_innerStep (overlay (List.replicate maxKeySize 0) bs) key offs 0, ?_⟩
  · simp only [lookupStep, if_pos hin, hread, hcursor]
  · simp only [scanStep, if_pos hin, hread]
    rcases scanChunk (overlay (List.replicate maxKeySize 0) bs) key 0 with str | str
    · rfl
    · rfl

/-- A chunk that the scan by chunks passes over. -/
theorem exists_inner_of_inl {offs' : ℕ} (hlt : offs < 2 ^ 64) (h : scanStep d key stop offs = .inl offs') :
    ∃ chunk c, lookupStep d key stop (.outer offs) = .inl (.inner chunk c) ∧
      Halts (innerStep chunk key) c (.inl offs') := by
  by_cases hin : offs < stop
  · rcases hread : pread d.fd chunkSize (d.offset + offs) with _ | bs
    · simp only [scanStep, if_pos hin, hread] at h
      cases h
    · obtain ⟨chunk, c, x, hstep, hx, hscan⟩ := exists_inner_of_pread key hlt hin hread
      refine ⟨chunk, c, hstep, ?_⟩
      rw [h] at hscan
      rcases x with offs' | _
      · cases hscan
        exact hx
      · cases hscan
  · rw [scanStep, if_neg hin] at h
    cases h

/-- A chunk that ends it. -/
theorem halts_outer_of_inr {r' : Result ℕ} (hlt : offs < 2 ^ 64) (h : scanStep d key stop offs = .inr r') :
    Halts (lookupStep d key stop) (.outer offs) r ↔ r = r' := by
  by_cases hin : offs < stop
  · rcases hread : pread d.fd chunkSize (d.offset + offs) with _ | bs
    · simp only [scanStep, if_pos hin, hread] at h
      cases h
      exact halts_iff_of_inr (by simp only [lookupStep, if_pos hin, hread])
    · obtain ⟨chunk, c, x, hstep, hx, hscan⟩ := exists_inner_of_pread key hlt hin hread
      rw [h] at hscan
      rcases x with _ | offs'
      · cases hscan
      · cases hscan
        rw [halts_iff_of_inl hstep, halts_inner_of_inr hx]
  · rw [scanStep, if_neg hin] at h
    cases h
    exact halts_iff_of_inr (if_neg hin)

/-- The next chunk starts at an offset of 64 bits. -/
theorem lt_of_scanStep_inl {offs' : ℕ} (h : scanStep d key stop offs = .inl offs') : offs' < 2 ^ 64 := by
  unfold scanStep at h
  split_ifs at h
  split at h
  · cases h
  · split at h
    · cases h
      exact Nat.mod_lt _ (by norm_num)
    · cases h

/-- A scan by chunks that ends is one of the two loops that ends. -/
theorem halts_lookupStep (hlt : offs < 2 ^ 64) (h : Halts (scanStep d key stop) offs r) :
    Halts (lookupStep d key stop) (.outer offs) r := by
  obtain ⟨n, hn⟩ := h
  induction n generalizing offs with
  | zero => cases hn
  | succ n ih =>
      rcases hstep : scanStep d key stop offs with offs' | r'
      · rw [loop_succ_of_inl hstep] at hn
        obtain ⟨chunk, c, hinner, hleft⟩ := exists_inner_of_inl hlt hstep
        rw [halts_iff_of_inl hinner, halts_inner_of_inl hleft]
        exact ih (lt_of_scanStep_inl hstep) hn
      · rw [loop_succ_of_inr hstep] at hn
        rw [halts_outer_of_inr hlt hstep]
        exact (Option.some.inj hn).symm

/-- A scan by chunks that goes on for ever. -/
def Endless (d : EosShardDictionary) (key : CString) (stop offs : ℕ) : Prop :=
  offs < 2 ^ 64 ∧ ∀ r, ¬ Halts (scanStep d key stop) offs r

/-- The states of the two loops on the way of such a scan. -/
def EndlessAt (d : EosShardDictionary) (key : CString) (stop : ℕ) : ScanState → Prop
  | .outer offs => Endless d key stop offs
  | .inner chunk c => ∃ offs, Halts (innerStep chunk key) c (.inl offs) ∧ Endless d key stop offs

/-- The next chunk of an endless scan. -/
theorem Endless.next (h : Endless d key stop offs) :
    ∃ offs', scanStep d key stop offs = .inl offs' ∧ Endless d key stop offs' := by
  rcases hstep : scanStep d key stop offs with offs' | r'
  · refine ⟨offs', rfl, lt_of_scanStep_inl hstep, fun r hr => h.2 r ?_⟩
    exact (halts_iff_of_inl hstep).mpr hr
  · exact absurd (halts_of_inr hstep) (h.2 r')

/-- A scan that goes on for ever goes on. -/
theorem EndlessAt.step {s : ScanState} (h : EndlessAt d key stop s) :
    ∃ s', lookupStep d key stop s = .inl s' ∧ EndlessAt d key stop s' := by
  rcases s with offs | ⟨chunk, c⟩
  · obtain ⟨offs', hstep, hnext⟩ := h.next
    obtain ⟨chunk, c, hinner, hleft⟩ := exists_inner_of_inl h.1 hstep
    exact ⟨_, hinner, offs', hleft, hnext⟩
  · obtain ⟨offs, hinner, hoffs⟩ := h
    rcases hstep : innerStep chunk key c with c' | x
    · exact ⟨.inner chunk c', by simp only [lookupStep, hstep], offs, (halts_iff_of_inl hstep).mp hinner, hoffs⟩
    · obtain rfl := (halts_iff_of_inr hstep).mp hinner
      exact ⟨.outer offs, by simp only [lookupStep, hstep], hoffs⟩

/-- **The two loops** end exactly where the scan by chunks does. -/
theorem halts_lookupStep_iff (hlt : offs < 2 ^ 64) :
    Halts (lookupStep d key stop) (.outer offs) r ↔ Halts (scanStep d key stop) offs r := by
  refine ⟨fun h => ?_, halts_lookupStep hlt⟩
  by_contra hnot
  have hendless : EndlessAt d key stop (.outer offs) := by
    refine ⟨hlt, fun r' hr' => hnot ?_⟩
    rwa [h.unique (halts_lookupStep hlt hr')]
  exact not_halts_of_invariant (EndlessAt d key stop) (fun _ hs => hs.step) hendless r h

end loops

/-! ## The plain scan -/

/-- A scan of the bytes of a block as a whole: every second string is a key, and the answer is the place
behind the first one that is looked for. -/
def scanWhole (block : Bytes) (key : CString) (str : ℕ) : Option ℕ :=
  if str < block.length then
    let chunkKey := cstr (block.drop str)
    let value := str + chunkKey.size
    if chunkKey = key then some value
    else scanWhole block key (value + (cstr (block.drop value)).size)
  else none
termination_by block.length - str
decreasing_by
  have := (cstr (block.drop str)).size_pos
  omega

/-- Over entries it is the scan by entries. -/
theorem scanWhole_entriesBytes (pre : Bytes) (es : List Entry) (key : CString) :
    scanWhole (pre ++ entriesBytes es) key pre.length = valueStart key pre.length es := by
  induction es generalizing pre with
  | nil =>
      rw [scanWhole, entriesBytes_nil, List.append_nil, if_neg (lt_irrefl _)]
      rfl
  | cons e es ih =>
      have hlt : pre.length < (pre ++ entriesBytes (e :: es)).length := by
        have := e.size_pos
        rw [List.length_append, entriesBytes_cons, List.length_append, Entry.length_toBytes]
        omega
      have hsplit : pre ++ entriesBytes (e :: es) =
          pre ++ (e.key.toBytes ++ (e.value.toBytes ++ entriesBytes es)) := by
        rw [entriesBytes_cons, Entry.toBytes, List.append_assoc]
      have hkey : cstr ((pre ++ entriesBytes (e :: es)).drop pre.length) = e.key := by
        rw [hsplit, List.drop_left, cstr_toBytes_append]
      have hvalue : cstr ((pre ++ entriesBytes (e :: es)).drop (pre.length + e.key.size)) = e.value := by
        rw [hsplit, ← List.drop_drop, List.drop_left, ← e.key.length_toBytes, List.drop_left,
          cstr_toBytes_append]
      have hrest := ih (pre ++ e.toBytes)
      rw [List.append_assoc, ← entriesBytes_cons, List.length_append, Entry.length_toBytes] at hrest
      rw [scanWhole, if_pos hlt, valueStart]
      simp only [hkey, hvalue]
      by_cases heq : e.key = key
      · rw [if_pos heq, if_pos heq, heq]
      · rw [if_neg heq, if_neg heq, Nat.add_assoc, ← Entry.size, hrest]

/-! ## The two scans -/

/-- What both scans find: the first entry with the key, at its value. -/
structure FoundAt (d : EosShardDictionary) (block : DictionaryBlockTableEntry) (es : List Entry)
    (key : CString) (value : ℕ) : Prop where
  /-- The plain scan of the block comes to the value. -/
  plain : scanWhole (slice d.fd (d.offset + block.offset) block.length) key 0 = some value
  /-- It is that of the first entry with the key. -/
  first : ∃ es₁ e es₂, es = es₁ ++ e :: es₂ ∧ (∀ e' ∈ es₁, e'.key ≠ key) ∧ e.key = key ∧
    value = (entriesBytes es₁).length + key.size ∧
    Holds d.fd (d.offset + (block.offset + value)) e.value.toBytes
  /-- The scan in windows ends, and answers its offset. -/
  windows : Returns (fun fuel => dictionaryLookupKeyInBlock fuel d block key) (.ok (block.offset + value))
  /-- So do the two loops of the source. -/
  loops : Halts (lookupStep d key ((block.offset + block.length) % 2 ^ 64)) (.outer block.offset)
    (.ok (block.offset + value))

/-- **The scan in windows equals the plain scan** on every key of a block, for entries that take at most 8190
bytes and whatever follows the block. -/
theorem lookupKeyInBlock_eq_scanWhole {d : EosShardDictionary} {block : DictionaryBlockTableEntry}
    {es : List Entry} {key : CString} (hblock : Holds d.fd (d.offset + block.offset) (entriesBytes es))
    (hlen : block.length = (entriesBytes es).length) (hlt : d.fd.length < 2 ^ 63)
    (hsize : ∀ e ∈ es, e.size ≤ 8190) (hmem : ∃ e ∈ es, e.key = key) :
    ∃ value, FoundAt d block es key value := by
  obtain ⟨es₁, e, es₂, hes, hne, hkey⟩ := exists_first hmem
  have hvalue : ∀ pos, valueStart key pos es = some (pos + (entriesBytes es₁).length + key.size) :=
    fun pos => by rw [hes, valueStart_append hne, valueStart, if_pos hkey]
  have hnil : es ≠ [] := by
    rw [hes]
    exact List.append_ne_nil_of_right_ne_nil _ (List.cons_ne_nil _ _)
  have hend := hblock.le_length (entriesBytes_ne_nil hnil)
  have hat : AtEntries d (block.offset + block.length) block.offset block.offset es :=
    { holds := hblock
      le := le_refl _
      lt_window := Nat.lt_add_of_pos_right (by norm_num)
      stop_eq := by rw [hlen]
      lt_off := by omega }
  have hfits : Fits key es := fits_of_forall_lt fun e' he' => Nat.lt_succ_of_le (hsize e' he')
  have hmod : (block.offset + block.length) % 2 ^ 64 = block.offset + block.length :=
    Nat.mod_eq_of_lt (by omega)
  have hhalts : Halts (scanStep d key (block.offset + block.length)) block.offset
      (.ok (block.offset + ((entriesBytes es₁).length + key.size))) := by
    rw [hat.halts_iff hnil, hat.scanFrom_of_some hfits (hvalue block.offset), Nat.add_assoc]
  refine ⟨(entriesBytes es₁).length + key.size, ?_, ⟨es₁, e, es₂, hes, hne, hkey, rfl, ?_⟩, ?_, ?_⟩
  · have hplain := scanWhole_entriesBytes [] es key
    rw [List.nil_append, List.length_nil, hvalue, Nat.zero_add] at hplain
    rw [hblock.slice_eq hlen, hplain]
  · rw [hes] at hblock
    rw [← Nat.add_assoc block.offset, ← hkey]
    exact holds_value hblock
  · simp only [dictionaryLookupKeyInBlock, hmod]
    exact returns_loop_iff.mpr hhalts
  · rw [hmod]
    exact (halts_lookupStep_iff (by omega)).mpr hhalts

/-- Three entries. The first window ends in the value of the second one. -/
def longEntries : List Entry :=
  [⟨letterKey 1, letterKey 5000⟩, ⟨letterKey 2, letterKey 5000⟩, ⟨letterKey 3, letterKey 1⟩]

/-- The entries of the example, two of which the windows cut. -/
theorem length_longEntries :
    (entriesBytes (longEntries.take 1)).length = 5003 ∧ (entriesBytes (longEntries.take 2)).length = 10007 ∧
      (entriesBytes longEntries).length = 10013 := by
  simp [longEntries, Entry.size, size_letterKey]

/-- A dictionary with them, with foreign bytes behind the block. -/
def longDictionary : EosShardDictionary := ⟨[7] ++ entriesBytes longEntries ++ [7, 7], 1, fourHeader, none⟩

/-- The key behind the cut is found in the second window. -/
theorem lookupKeyInBlock_eq_scanWhole_cut :
    ((entriesBytes (longEntries.take 1)).length < chunkSize ∧
      chunkSize < (entriesBytes (longEntries.take 2)).length) ∧
      ∃ value, FoundAt longDictionary ⟨0, 10013⟩ longEntries (letterKey 3) value := by
  obtain ⟨hone, htwo, hall⟩ := length_longEntries
  refine ⟨⟨by rw [hone]; decide, by rw [htwo]; decide⟩, lookupKeyInBlock_eq_scanWhole ?_ hall.symm ?_ ?_ ?_⟩
  · have hne : entriesBytes longEntries ≠ [] := List.ne_nil_of_length_pos (by rw [hall]; decide)
    exact (holds_iff_exists_append hne).mpr ⟨[7], [7, 7], rfl, rfl⟩
  · show ([7] ++ entriesBytes longEntries ++ [7, 7]).length < 2 ^ 63
    rw [List.length_append, List.length_append, hall]
    decide
  · simp [longEntries, Entry.size, size_letterKey]
  · exact ⟨_, List.mem_cons_of_mem _ (List.mem_cons_of_mem _ List.mem_cons_self), rfl⟩

end EosShard.Dictionary
