import EosShard.Dictionary.Search

/-!
# The scan of a block

`dictionary_lookup_key_in_block` reads windows of 8191 bytes, and starts a new one at every entry that
does not lie whole in the window it began in. Over the entries of a block, whatever follows them:

* `scanChunk_eq` is the inner loop at an entry.
* `AtEntry.scanFrom_of_eq`, `AtEntry.scanFrom_of_ne` and `AtEntry.not_scanFrom` are the whole scan at an
  entry, wherever the window cuts it: an entry with the key ends the scan, any other entry is passed
  over, and an entry that no window holds is read again and again.
* `Fits` is the condition on the entries under which the scan ends (`AtEntries.exists_halts_iff`). It
  then finds the first entry with the key, as a scan without windows does (`valueStart`,
  `AtEntries.scanFrom_of_some`). Without such an entry it goes on in its last window behind the end of
  the block, and takes what lies there for entries (`strayKeys`, `scanFrom_end_of_mem`).
-/

namespace EosShard.Dictionary

open EosShard.Found

/-! ## A window -/

/-- The chunk that is read at `offs`. -/
def chunkAt (d : EosShardDictionary) (offs : ℕ) : Bytes :=
  overlay (List.replicate maxKeySize 0) (slice d.fd (d.offset + offs) chunkSize)

/-- A chunk has its size. -/
theorem length_chunkAt (d : EosShardDictionary) (offs : ℕ) : (chunkAt d offs).length = maxKeySize := by
  have := length_slice_le d.fd (d.offset + offs) chunkSize
  rw [chunkAt, length_overlay, List.length_replicate]
  rw [List.length_replicate]
  exact this.trans (Nat.sub_le _ _)

/-- The string at a place of the window ends at the end of the window, if not before. -/
theorem cstr_drop_chunkAt (d : EosShardDictionary) (offs str : ℕ) :
    cstr ((chunkAt d offs).drop str) = cstr (slice d.fd (d.offset + offs + str) (chunkSize - str)) := by
  have hdrop : (slice d.fd (d.offset + offs) chunkSize).drop str =
      slice d.fd (d.offset + offs + str) (chunkSize - str) := by
    rw [slice, slice, List.drop_take, List.drop_drop]
  rw [chunkAt, overlay, List.drop_append, hdrop, List.drop_replicate, List.drop_replicate,
    cstr_append_replicate_zero]

section window

variable {d : EosShardDictionary} {offs str : ℕ} {s : CString}

/-- A string that the window holds, with a byte to spare. -/
theorem cstr_of_fits (h : Holds d.fd (d.offset + (offs + str)) s.toBytes)
    (hfit : str + s.size < chunkSize) : cstr ((chunkAt d offs).drop str) = s := by
  rw [cstr_drop_chunkAt, Nat.add_assoc, cstr_slice_of_holds h (by omega)]

/-- Any other string seems to reach the end of the window. -/
theorem le_size_of_cut (h : Holds d.fd (d.offset + (offs + str)) s.toBytes) (hstr : str ≤ chunkSize)
    (hcut : chunkSize ≤ str + s.size) : chunkSize ≤ str + (cstr ((chunkAt d offs).drop str)).size := by
  rw [cstr_drop_chunkAt, Nat.add_assoc]
  by_cases hle : s.size ≤ chunkSize - str
  · rw [cstr_slice_of_holds h hle]
    exact hcut
  · rw [size_cstr_slice_of_holds h (by omega)]
    omega

/-- **The inner loop at an entry.** -/
theorem scanChunk_eq {e : Entry} {key : CString} (h : Holds d.fd (d.offset + (offs + str)) e.toBytes)
    (hstr : str ≤ chunkSize) :
    scanChunk (chunkAt d offs) key str =
      if chunkSize ≤ str + e.key.size then .inl str
      else if e.key = key then .inr (str + e.key.size)
      else if chunkSize ≤ str + e.size then .inl str
      else scanChunk (chunkAt d offs) key (str + e.size) := by
  rw [Entry.toBytes, Holds.append_iff, CString.length_toBytes, Nat.add_assoc, Nat.add_assoc] at h
  obtain ⟨hkey, hvalue⟩ := h
  rw [scanChunk]
  simp only
  by_cases hcut : chunkSize ≤ str + e.key.size
  · rw [if_pos hcut, if_pos (le_size_of_cut hkey hstr hcut)]
  · rw [cstr_of_fits hkey (not_le.mp hcut), if_neg hcut, if_neg hcut]
    by_cases heq : e.key = key
    · rw [if_pos heq, if_pos heq]
    · rw [if_neg heq, if_neg heq, Entry.size, ← Nat.add_assoc]
      by_cases hcut' : chunkSize ≤ str + e.key.size + e.value.size
      · rw [if_pos hcut', if_pos (le_size_of_cut hvalue (not_le.mp hcut).le hcut')]
      · rw [if_neg hcut', cstr_of_fits hvalue (not_le.mp hcut'), if_neg hcut']

end window

/-! ## The scan at an entry -/

/-- The scan that has come to `pos` in the window at `offs` is left with `r`. -/
def ScanFrom (d : EosShardDictionary) (key : CString) (stop offs pos : ℕ) (r : Result ℕ) : Prop :=
  match scanChunk (chunkAt d offs) key (pos - offs) with
  | .inl str => Halts (scanStep d key stop) (offs + str) r
  | .inr str => r = .ok (offs + str)

section scan

variable {d : EosShardDictionary} {key : CString} {stop offs pos : ℕ} {r : Result ℕ}

/-- If the chunk is used up, the scan goes on with the next one. -/
theorem scanFrom_of_inl {str : ℕ} (h : scanChunk (chunkAt d offs) key (pos - offs) = .inl str) :
    ScanFrom d key stop offs pos r ↔ Halts (scanStep d key stop) (offs + str) r := by
  rw [ScanFrom, h]

/-- If the chunk has the key, the scan ends behind it. -/
theorem scanFrom_of_inr {str : ℕ} (h : scanChunk (chunkAt d offs) key (pos - offs) = .inr str) :
    ScanFrom d key stop offs pos r ↔ r = .ok (offs + str) := by
  rw [ScanFrom, h]

/-- The inner loop stays in its window. -/
theorem lt_of_scanChunk_inl {chunk : Bytes} {str s : ℕ} (hstr : str < chunkSize)
    (h : scanChunk chunk key str = .inl s) : str ≤ s ∧ s < chunkSize := by
  fun_induction scanChunk chunk key str with
  | case1 =>
      cases h
      exact ⟨le_refl _, hstr⟩
  | case2 => cases h
  | case3 =>
      cases h
      exact ⟨le_refl _, hstr⟩
  | case4 str chunkKey value hcut hne next hcut' ih =>
      have := ih (not_le.mp hcut') h
      omega

/-- The value of a key starts behind the place the chunk is scanned from, and within the chunk. -/
theorem lt_of_scanChunk_inr {chunk : Bytes} {str s : ℕ} (h : scanChunk chunk key str = .inr s) :
    str < s ∧ s < chunkSize := by
  fun_induction scanChunk chunk key str with
  | case1 => cases h
  | case2 str chunkKey value hcut heq =>
      rw [← Sum.inr.inj h]
      exact ⟨Nat.lt_add_of_pos_right chunkKey.size_pos, not_le.mp hcut⟩
  | case3 => cases h
  | case4 str chunkKey value hcut hne next hcut' ih =>
      have := ih h
      omega

/-- One step scans one chunk. -/
theorem scanStep_eq (key : CString) (hpos : offs < stop) (hlt : d.offset + offs < 2 ^ 63) :
    scanStep d key stop offs = match scanChunk (chunkAt d offs) key 0 with
      | .inl str => .inl (offs + str)
      | .inr str => .inr (.ok (offs + str)) := by
  have hmod : ∀ str, str < chunkSize → (offs + str) % 2 ^ 64 = offs + str := fun str hstr =>
    Nat.mod_eq_of_lt (by have : str < 8191 := hstr; omega)
  have hstep : scanStep d key stop offs = match scanChunk (chunkAt d offs) key 0 with
      | .inl str => .inl ((offs + str) % 2 ^ 64)
      | .inr str => .inr (.ok ((offs + str) % 2 ^ 64)) := by
    rw [scanStep, if_pos hpos, pread_eq hlt]
    rfl
  rw [hstep]
  rcases hscan : scanChunk (chunkAt d offs) key 0 with str | str
  · simp only [hmod str (lt_of_scanChunk_inl (by norm_num) hscan).2]
  · simp only [hmod str (lt_of_scanChunk_inr hscan).2]

/-- A chunk that is read inside the block is scanned from its start. -/
theorem halts_scanStep_iff (hpos : offs < stop) (hlt : d.offset + offs < 2 ^ 63) :
    Halts (scanStep d key stop) offs r ↔ ScanFrom d key stop offs offs r := by
  have hstep := scanStep_eq key hpos hlt
  rw [ScanFrom, Nat.sub_self]
  rcases hscan : scanChunk (chunkAt d offs) key 0 with str | str
  · rw [hscan] at hstep
    exact halts_iff_of_inl hstep
  · rw [hscan] at hstep
    exact halts_iff_of_inr hstep

/-- The outer loop ends at the end of the block. -/
theorem halts_scanStep_of_le (hpos : stop ≤ offs) :
    Halts (scanStep d key stop) offs r ↔ r = .ok 0 :=
  halts_iff_of_inr (if_neg (not_lt.mpr hpos))

/-- Where the chunk is cut the next one starts. -/
theorem scanFrom_iff_of_cut (hcut : scanChunk (chunkAt d offs) key (pos - offs) = .inl (pos - offs))
    (hle : offs ≤ pos) (hpos : pos < stop) (hlt : d.offset + pos < 2 ^ 63) :
    ScanFrom d key stop offs pos r ↔ ScanFrom d key stop pos pos r := by
  rw [scanFrom_of_inl hcut, Nat.add_sub_cancel' hle, halts_scanStep_iff hpos hlt]

end scan

/-- A place of the block at which an entry begins, and the window the scan has come to it in. -/
structure AtEntry (d : EosShardDictionary) (stop offs pos : ℕ) (e : Entry) : Prop where
  holds : Holds d.fd (d.offset + pos) e.toBytes
  le : offs ≤ pos
  lt_window : pos < offs + chunkSize
  lt_stop : pos < stop
  lt_off : d.offset + pos < 2 ^ 63

section entry

variable {d : EosShardDictionary} {key : CString} {stop offs pos : ℕ} {r : Result ℕ} {e : Entry}

/-- The next window starts with the entry. -/
theorem AtEntry.restart (h : AtEntry d stop offs pos e) : AtEntry d stop pos pos e :=
  ⟨h.holds, le_refl _, Nat.lt_add_of_pos_right (by norm_num), h.lt_stop, h.lt_off⟩

/-- The scan of a chunk from an entry on: whether the chunk ends within the entry, and whether the key is
that of the entry. -/
theorem AtEntry.scanChunk_eq (h : AtEntry d stop offs pos e) (key : CString) :
    scanChunk (chunkAt d offs) key (pos - offs) =
      if chunkSize ≤ pos - offs + e.key.size then .inl (pos - offs)
      else if e.key = key then .inr (pos - offs + e.key.size)
      else if chunkSize ≤ pos - offs + e.size then .inl (pos - offs)
      else scanChunk (chunkAt d offs) key (pos - offs + e.size) := by
  have hheld := h.holds
  have := h.lt_window
  rw [← Nat.add_sub_cancel' h.le] at hheld
  exact Dictionary.scanChunk_eq hheld (by omega)

/-- If a chunk ends within an entry, the next one starts with the entry. -/
theorem AtEntry.restart_iff (h : AtEntry d stop offs pos e)
    (hcut : scanChunk (chunkAt d offs) key (pos - offs) = .inl (pos - offs)) :
    ScanFrom d key stop offs pos r ↔ ScanFrom d key stop pos pos r :=
  scanFrom_iff_of_cut hcut h.le h.lt_stop h.lt_off

/-- **An entry with the key** ends the scan at its value, in this window or in the next. -/
theorem AtEntry.scanFrom_of_eq (h : AtEntry d stop offs pos e) (hkey : e.key = key)
    (hfit : key.size < chunkSize) : ScanFrom d key stop offs pos r ↔ r = .ok (pos + key.size) := by
  have hhere : ∀ {offs}, AtEntry d stop offs pos e → ¬ chunkSize ≤ pos - offs + e.key.size →
      (ScanFrom d key stop offs pos r ↔ r = .ok (pos + key.size)) := fun {offs} h hcut => by
    have hscan := h.scanChunk_eq key
    rw [if_neg hcut, if_pos hkey] at hscan
    rw [scanFrom_of_inr hscan, ← Nat.add_assoc, Nat.add_sub_cancel' h.le, hkey]
  by_cases hcut : chunkSize ≤ pos - offs + e.key.size
  · have hscan := h.scanChunk_eq key
    rw [if_pos hcut] at hscan
    rw [h.restart_iff hscan]
    exact hhere h.restart (by rw [Nat.sub_self, hkey]; omega)
  · exact hhere h hcut

/-- **Any other entry** that fits into a window is passed over; if it is cut, the next window starts with
it. -/
theorem AtEntry.scanFrom_of_ne (h : AtEntry d stop offs pos e) (hkey : e.key ≠ key)
    (hfit : e.size < chunkSize) :
    ScanFrom d key stop offs pos r ↔
      ScanFrom d key stop (if chunkSize ≤ pos - offs + e.size then pos else offs) (pos + e.size) r := by
  have hkeySize := e.key_size_le
  have hskip : ∀ {offs}, AtEntry d stop offs pos e → ¬ chunkSize ≤ pos - offs + e.size →
      (ScanFrom d key stop offs pos r ↔ ScanFrom d key stop offs (pos + e.size) r) :=
    fun {offs} h hcut => by
      have hscan := h.scanChunk_eq key
      rw [if_neg (by omega), if_neg hkey, if_neg hcut, ← Nat.sub_add_comm h.le] at hscan
      rw [ScanFrom, ScanFrom, hscan]
  by_cases hcut : chunkSize ≤ pos - offs + e.size
  · have hscan := h.scanChunk_eq key
    rw [if_neg hkey, if_pos hcut, ite_self] at hscan
    rw [if_pos hcut, h.restart_iff hscan]
    exact hskip h.restart (by rw [Nat.sub_self]; omega)
  · rw [if_neg hcut]
    exact hskip h hcut

/-- **An entry that no window holds** is read again and again. -/
theorem AtEntry.not_scanFrom (h : AtEntry d stop offs pos e) (hkey : e.key = key → chunkSize ≤ key.size)
    (hlong : chunkSize ≤ e.size) : ¬ ScanFrom d key stop offs pos r := by
  have hcut : ∀ {offs}, AtEntry d stop offs pos e →
      scanChunk (chunkAt d offs) key (pos - offs) = .inl (pos - offs) := fun {offs} h => by
    rw [h.scanChunk_eq key]
    by_cases heq : e.key = key
    · have := hkey heq
      rw [if_pos (by rw [heq]; omega)]
    · have hle : chunkSize ≤ pos - offs + e.size := by omega
      rw [if_neg heq, if_pos hle, ite_self]
  rw [h.restart_iff (hcut h), ← halts_scanStep_iff h.lt_stop h.lt_off]
  have hstep := scanStep_eq key h.lt_stop h.lt_off
  have hstart := hcut h.restart
  rw [Nat.sub_self] at hstart
  rw [hstart] at hstep
  exact not_halts_of_fixed hstep r

end entry

/-! ## The scan of the entries -/

/-- A scan of entries from `pos` on without windows: where the value of the first one with the key
starts. -/
def valueStart (key : CString) : ℕ → List Entry → Option ℕ
  | _, [] => none
  | pos, e :: es => if e.key = key then some (pos + key.size) else valueStart key (pos + e.size) es

/-- Entries without the key are passed over. -/
theorem valueStart_append {key : CString} {es : List Entry} (h : ∀ e ∈ es, e.key ≠ key) (pos : ℕ)
    (es' : List Entry) :
    valueStart key pos (es ++ es') = valueStart key (pos + (entriesBytes es).length) es' := by
  induction es generalizing pos with
  | nil => rfl
  | cons e es ih =>
      rw [List.cons_append, valueStart, if_neg (h e List.mem_cons_self),
        ih (fun e' he' => h e' (List.mem_cons_of_mem _ he')), entriesBytes_cons, List.length_append,
        Entry.length_toBytes, Nat.add_assoc]

/-- The first entry with a key. -/
theorem exists_first {es : List Entry} {key : CString} (h : ∃ e ∈ es, e.key = key) :
    ∃ es₁ e es₂, es = es₁ ++ e :: es₂ ∧ (∀ e' ∈ es₁, e'.key ≠ key) ∧ e.key = key := by
  have hsome : (es.find? fun e => e.key = key).isSome = true := by simpa using h
  obtain ⟨e, he⟩ := Option.isSome_iff_exists.mp hsome
  obtain ⟨hkey, es₁, es₂, hes, hfront⟩ := List.find?_eq_some_iff_append.mp he
  exact ⟨es₁, e, es₂, hes, fun e' he' => by simpa using hfront e' he', of_decide_eq_true hkey⟩

/-- Where the scan finds it, its value lies in the file. -/
theorem holds_value {fd : Bytes} {offset pos : ℕ} {es₁ es₂ : List Entry} {e : Entry}
    (h : Holds fd (offset + pos) (entriesBytes (es₁ ++ e :: es₂))) :
    Holds fd (offset + (pos + (entriesBytes es₁).length + e.key.size)) e.value.toBytes := by
  rw [entriesBytes_append, entriesBytes_cons, Entry.toBytes, Holds.append_iff, Holds.append_iff,
    Holds.append_iff, CString.length_toBytes] at h
  rw [← Nat.add_assoc, ← Nat.add_assoc]
  exact h.2.1.2

/-- The entries can be scanned: those in front of the first one with the key fit into a window, and so
does the key, if there is such an entry. -/
def Fits (key : CString) : List Entry → Prop
  | [] => True
  | e :: es => if e.key = key then key.size < chunkSize else e.size < chunkSize ∧ Fits key es

/-- Whether the entries up to a key fit into a chunk can be decided. -/
instance decidableFits (key : CString) : (es : List Entry) → Decidable (Fits key es)
  | [] => isTrue trivial
  | e :: es =>
      have := decidableFits key es
      inferInstanceAs (Decidable (if e.key = key then _ else _))

/-- The window in which a scan that passes over the entries comes to their end. -/
def lastWindow : ℕ → ℕ → List Entry → ℕ
  | offs, _, [] => offs
  | offs, pos, e :: es =>
      lastWindow (if chunkSize ≤ pos - offs + e.size then pos else offs) (pos + e.size) es

/-- Short entries fit, whatever the key is. -/
theorem fits_of_forall_lt {key : CString} {es : List Entry} (h : ∀ e ∈ es, e.size < chunkSize) :
    Fits key es := by
  induction es with
  | nil => trivial
  | cons e es ih =>
      rw [Fits]
      split_ifs with hkey
      · exact (hkey ▸ e.key_size_le).trans_lt (h e List.mem_cons_self)
      · exact ⟨h e List.mem_cons_self, ih fun e' he' => h e' (List.mem_cons_of_mem _ he')⟩

/-- The entries `es` are the rest of the block from `pos` on, which the scan has come to in the window
at `offs`. -/
structure AtEntries (d : EosShardDictionary) (stop offs pos : ℕ) (es : List Entry) : Prop where
  holds : Holds d.fd (d.offset + pos) (entriesBytes es)
  le : offs ≤ pos
  lt_window : pos < offs + chunkSize
  stop_eq : stop = pos + (entriesBytes es).length
  lt_off : d.offset + stop < 2 ^ 63

section entries

variable {d : EosShardDictionary} {key : CString} {stop offs pos : ℕ} {es : List Entry}

/-- The scan is at the first of the entries. -/
theorem AtEntries.head {e : Entry} (h : AtEntries d stop offs pos (e :: es)) :
    AtEntry d stop offs pos e := by
  have hheld := h.holds
  have hstop := h.stop_eq
  have hlt := h.lt_off
  have hpos := e.size_pos
  rw [entriesBytes_cons, Holds.append_iff] at hheld
  rw [entriesBytes_cons, List.length_append, Entry.length_toBytes] at hstop
  exact ⟨hheld.1, h.le, h.lt_window, by omega, by omega⟩

/-- Behind an entry that fits the scan is at the other ones. -/
theorem AtEntries.tail {e : Entry} (h : AtEntries d stop offs pos (e :: es)) (hfit : e.size < chunkSize) :
    AtEntries d stop (if chunkSize ≤ pos - offs + e.size then pos else offs) (pos + e.size) es := by
  have hheld := h.holds
  have hstop := h.stop_eq
  have hle := h.le
  rw [entriesBytes_cons, Holds.append_iff, Entry.length_toBytes] at hheld
  rw [entriesBytes_cons, List.length_append, Entry.length_toBytes, ← Nat.add_assoc] at hstop
  refine ⟨by rw [← Nat.add_assoc]; exact hheld.2, ?_, ?_, hstop, h.lt_off⟩
  all_goals
    split_ifs
    all_goals omega

/-- **An entry with the key is found**, the first one. -/
theorem AtEntries.scanFrom_of_some (h : AtEntries d stop offs pos es) (hfits : Fits key es) {value : ℕ}
    (hvalue : valueStart key pos es = some value) (r : Result ℕ) :
    ScanFrom d key stop offs pos r ↔ r = .ok value := by
  induction es generalizing offs pos with
  | nil => cases hvalue
  | cons e es ih =>
      rw [Fits] at hfits
      rw [valueStart] at hvalue
      split_ifs at hfits hvalue with hkey
      · cases hvalue
        exact h.head.scanFrom_of_eq hkey hfits
      · rw [h.head.scanFrom_of_ne hkey hfits.1]
        exact ih (h.tail hfits.1) hfits.2 hvalue

/-- Without an entry with the key the scan comes to the end of the block. -/
theorem AtEntries.scanFrom_of_none (h : AtEntries d stop offs pos es) (hfits : Fits key es)
    (hvalue : valueStart key pos es = none) (r : Result ℕ) :
    (ScanFrom d key stop offs pos r ↔ ScanFrom d key stop (lastWindow offs pos es) stop r) ∧
      lastWindow offs pos es ≤ stop ∧ stop < lastWindow offs pos es + chunkSize := by
  induction es generalizing offs pos with
  | nil =>
      have hstop := h.stop_eq
      rw [entriesBytes_nil, List.length_nil, Nat.add_zero] at hstop
      rw [lastWindow, hstop]
      exact ⟨Iff.rfl, h.le, h.lt_window⟩
  | cons e es ih =>
      rw [Fits] at hfits
      rw [valueStart] at hvalue
      split_ifs at hfits hvalue with hkey
      rw [h.head.scanFrom_of_ne hkey hfits.1, lastWindow]
      exact ih (h.tail hfits.1) hfits.2 hvalue

/-- **An entry that does not fit** is never left. -/
theorem AtEntries.not_scanFrom (h : AtEntries d stop offs pos es) (hfits : ¬ Fits key es)
    (r : Result ℕ) : ¬ ScanFrom d key stop offs pos r := by
  induction es generalizing offs pos with
  | nil => exact absurd trivial hfits
  | cons e es ih =>
      rw [Fits] at hfits
      split_ifs at hfits with hkey
      · refine h.head.not_scanFrom (fun _ => not_lt.mp hfits) ?_
        exact (not_lt.mp hfits).trans (hkey ▸ e.key_size_le)
      · by_cases hlong : e.size < chunkSize
        · rw [h.head.scanFrom_of_ne hkey hlong]
          exact ih (h.tail hlong) fun hes => hfits ⟨hlong, hes⟩
        · exact h.head.not_scanFrom (fun heq => absurd heq hkey) (not_lt.mp hlong)

end entries

/-! ## Behind the block -/

/-- The keys of the pairs of strings in a buffer, up to the first pair that comes to the last byte of the
buffer; of that pair the key counts if it does not come there itself. -/
def pairKeys (buf : Bytes) : List CString :=
  let key := cstr buf
  if buf.length ≤ key.size + 1 then []
  else
    let value := cstr (buf.drop key.size)
    if buf.length ≤ key.size + value.size + 1 then [key]
    else key :: pairKeys (buf.drop (key.size + value.size))
termination_by buf.length
decreasing_by
  have := (cstr buf).size_pos
  rw [List.length_drop]
  omega

/-- The first string of a buffer counts, if it ends in front of the last byte. -/
theorem cstr_mem_pairKeys {buf : Bytes} (h : (cstr buf).size + 1 < buf.length) :
    cstr buf ∈ pairKeys buf := by
  rw [pairKeys, if_neg (not_le.mpr h)]
  simp only
  split_ifs
  · exact List.mem_singleton_self _
  · exact List.mem_cons_self

/-- What the last window of a scan holds behind the block, taken for entries. -/
def strayKeys (d : EosShardDictionary) (offs stop : ℕ) : List CString :=
  pairKeys ((chunkAt d offs).drop (stop - offs))

/-- The inner loop finds a key exactly if it is one of those. -/
theorem scanChunk_inr_iff {chunk : Bytes} (hlen : chunk.length = maxKeySize) {key : CString} {str : ℕ}
    (hstr : str ≤ chunkSize) :
    (∃ s, scanChunk chunk key str = .inr s) ↔ key ∈ pairKeys (chunk.drop str) := by
  have hbuf : ∀ n, (chunk.drop str).length ≤ n + 1 ↔ chunkSize ≤ str + n := fun n => by
    rw [List.length_drop, hlen]
    show 8192 - str ≤ n + 1 ↔ 8191 ≤ str + n
    omega
  fun_induction scanChunk chunk key str with
  | case1 str chunkKey value hcut =>
      rw [pairKeys, if_pos ((hbuf _).mpr hcut)]
      exact iff_of_false (fun ⟨s, hs⟩ => by cases hs) List.not_mem_nil
  | case2 str chunkKey value hcut heq =>
      refine iff_of_true ⟨value, rfl⟩ ?_
      rw [← heq]
      exact cstr_mem_pairKeys (not_le.mp (mt (hbuf _).mp hcut))
  | case3 str chunkKey value hcut hne next hcut' =>
      have hnext : chunkSize ≤ str + (chunkKey.size + (cstr (chunk.drop value)).size) := by
        rwa [← Nat.add_assoc]
      rw [pairKeys, if_neg (mt (hbuf _).mp hcut)]
      simp only [List.drop_drop]
      rw [if_pos ((hbuf _).mpr hnext)]
      exact iff_of_false (fun ⟨s, hs⟩ => by cases hs) fun h => hne (List.mem_singleton.mp h).symm
  | case4 str chunkKey value hcut hne next hcut' ih =>
      have hnext : next = str + (chunkKey.size + (cstr (chunk.drop value)).size) := by
        rw [← Nat.add_assoc]
      have hne' : key ≠ chunkKey := fun h => hne h.symm
      rw [pairKeys, if_neg (mt (hbuf _).mp hcut)]
      simp only [List.drop_drop]
      rw [if_neg (mt (hbuf _).mp (by rwa [← hnext])), List.mem_cons, or_iff_right hne', ← hnext]
      exact ih (not_le.mp hcut').le fun n => by
        rw [List.length_drop, hlen]
        show 8192 - next ≤ n + 1 ↔ 8191 ≤ next + n
        have : ¬ 8191 ≤ next := hcut'
        omega

section block

variable {d : EosShardDictionary} {key : CString} {stop offs pos : ℕ} {es : List Entry}

/-- Behind the block no other window is read. -/
theorem scanFrom_end (hle : offs ≤ stop) (hlt : stop < offs + chunkSize)
    (hkey : key ∉ strayKeys d offs stop) (r : Result ℕ) :
    ScanFrom d key stop offs stop r ↔ r = .ok 0 := by
  rw [strayKeys, ← scanChunk_inr_iff (length_chunkAt d offs) (by omega)] at hkey
  rcases hscan : scanChunk (chunkAt d offs) key (stop - offs) with str | str
  · have := lt_of_scanChunk_inl (by omega) hscan
    rw [scanFrom_of_inl hscan, halts_scanStep_of_le (by omega)]
  · exact absurd ⟨str, hscan⟩ hkey

/-- **A stray key is found** behind the block. -/
theorem scanFrom_end_of_mem (hle : offs ≤ stop) (hlt : stop < offs + chunkSize)
    (hkey : key ∈ strayKeys d offs stop) :
    ∃ value, 0 < value ∧ ∀ r, ScanFrom d key stop offs stop r ↔ r = .ok value := by
  rw [strayKeys, ← scanChunk_inr_iff (length_chunkAt d offs) (by omega)] at hkey
  obtain ⟨str, hscan⟩ := hkey
  have := lt_of_scanChunk_inr hscan
  exact ⟨offs + str, by omega, fun r => scanFrom_of_inr hscan⟩

/-- In front of an entry the block has not ended. -/
theorem AtEntries.lt_stop (h : AtEntries d stop offs pos es) (hne : es ≠ []) : pos < stop := by
  cases es with
  | nil => exact absurd rfl hne
  | cons e es => exact h.head.lt_stop

/-- The loop at the start of a chunk is the scan from there. -/
theorem AtEntries.halts_iff (h : AtEntries d stop pos pos es) (hne : es ≠ []) {r : Result ℕ} :
    Halts (scanStep d key stop) pos r ↔ ScanFrom d key stop pos pos r := by
  have hpos := h.lt_stop hne
  have := h.lt_off
  exact halts_scanStep_iff hpos (by omega)

/-- **The scan of a block ends exactly if its entries fit.** -/
theorem AtEntries.exists_halts_iff (h : AtEntries d stop pos pos es) (hne : es ≠ []) :
    (∃ r, Halts (scanStep d key stop) pos r) ↔ Fits key es := by
  constructor
  · rintro ⟨r, hr⟩
    by_contra hfits
    exact h.not_scanFrom hfits r ((h.halts_iff hne).mp hr)
  · intro hfits
    rcases hvalue : valueStart key pos es with _ | value
    · obtain ⟨hiff, hle, hlt⟩ := h.scanFrom_of_none hfits hvalue (.ok 0)
      by_cases hkey : key ∈ strayKeys d (lastWindow pos pos es) stop
      · obtain ⟨value, -, hend⟩ := scanFrom_end_of_mem hle hlt hkey
        have := (h.scanFrom_of_none hfits hvalue (.ok value)).1
        exact ⟨.ok value, (h.halts_iff hne).mpr (this.mpr ((hend _).mpr rfl))⟩
      · exact ⟨.ok 0, (h.halts_iff hne).mpr (hiff.mpr ((scanFrom_end hle hlt hkey _).mpr rfl))⟩
    · exact ⟨.ok value, (h.halts_iff hne).mpr ((h.scanFrom_of_some hfits hvalue _).mpr rfl)⟩

/-- A scan that ends reads every chunk behind the one before. -/
theorem AtEntries.lt_of_iterates (h : AtEntries d stop pos pos es) {r : Result ℕ}
    (hr : Halts (scanStep d key stop) pos r) {offs' : ℕ}
    (hreach : Iterates (scanStep d key stop) pos offs)
    (hstep : scanStep d key stop offs = .inl offs') : offs < offs' := by
  have hlt := h.lt_off
  have hin : offs < stop := by
    by_contra hc
    rw [scanStep, if_neg hc] at hstep
    cases hstep
  have hoffs : d.offset + offs < 2 ^ 63 := by omega
  have heq := scanStep_eq key hin hoffs
  rcases hscan : scanChunk (chunkAt d offs) key 0 with str | str
  · rw [hscan, hstep] at heq
    cases heq
    refine lt_of_le_of_ne (Nat.le_add_right _ _) fun hne => ?_
    rw [← hne] at hstep
    exact not_halts_of_fixed hstep r (hreach.halts_iff.mp hr)
  · rw [hscan, hstep] at heq
    cases heq

end block

end EosShard.Dictionary
