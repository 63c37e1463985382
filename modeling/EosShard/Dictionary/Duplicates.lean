import EosShard.Dictionary.Lookup

/-!
# Which value a lookup finds

The writer accepts a key again right behind itself, so a dictionary can have several entries of one
key. They lie next to each other, but the search for the block goes to the last block that does not
start behind the key, and the scan takes the first entry with the key in there.

* `Answers`: what a lookup of each stored key finds, by the places that the key occupies.
* `Stored.answers`: a dictionary of the writer answers so.
* `lookupKey_answers`: **the value of every accepted key**, wherever the dictionary lies in its file.
-/

namespace EosShard.Dictionary

open EosShard.Found

/-- The entry whose value is found if a key occupies the places from `i` to `j`, in blocks of `l`
entries: the first one in the block of the last one. -/
def foundPlace (l i j : ℕ) : ℕ := max i (j / l * l)

/-- A lookup of a stored key returns the value of the entry at `foundPlace`. -/
def Answers (d : EosShardDictionary) (l : ℕ) (es : List Entry) : Prop :=
  ∀ heap key i j, Occupies Entry.key es key i j → ∃ e, es[foundPlace l i j]? = some e ∧
    e.key = key ∧ Returns (fun fuel => lookupKey fuel heap d key) (.ok (some e.value))

section stored

variable {params : BloomFilterHeader} {l : ℕ} {es : List Entry} {d : EosShardDictionary}
  {key : CString} {i j : ℕ}

/-- The block of the last entry with the key is searched. -/
theorem selectedBlock_of_occupies (hl : 0 < l) (hsorted : es.Pairwise fun e e' => e.key ≤ e'.key)
    (hocc : Occupies Entry.key es key i j) (hsize : key.size < 2 ^ 31) :
    selectedBlock l es key = some (j / l) := by
  have hlt := hocc.lt
  have hstart : j / l * l ≤ j := Nat.div_mul_le_self j l
  have hkey : es[j].key = key := (hocc.iff j hlt).mpr ⟨hocc.le, le_refl j⟩
  rw [selectedBlock_of_lt hsize, findLast_decide_eq_some_iff]
  refine ⟨(lt_ceilDiv_iff hl).mpr (hstart.trans_lt hlt), ?_, fun k hk hk' => ?_⟩
  · rw [firstKey_eq (hstart.trans_lt hlt), ← hkey]
    exact sorted_getElem hsorted hstart _ hlt
  · -- a block behind it starts behind the last entry with the key
    have hkl := (lt_ceilDiv_iff hl).mp hk'
    have hjk : j < k * l := (Nat.div_lt_iff_lt_mul hl).mp hk
    have hle : key ≤ es[k * l].key := by
      rw [← hkey]
      exact sorted_getElem hsorted hjk.le hlt hkl
    rw [firstKey_eq hkl]
    intro hge
    have := ((hocc.iff _ hkl).mp (le_antisymm hge hle)).2
    omega

/-- The first entry with the key in there. -/
theorem blockEntries_of_occupies (hl : 0 < l) (hocc : Occupies Entry.key es key i j) :
    ∃ e es₁ es₂, es[foundPlace l i j]? = some e ∧ e.key = key ∧
      blockEntries l es (j / l) = es₁ ++ e :: es₂ ∧ ∀ e' ∈ es₁, e'.key ≠ key := by
  have hstart : j / l * l ≤ j := Nat.div_mul_le_self j l
  have hend : j < j / l * l + l := by
    have := Nat.lt_div_mul_add (a := j) hl
    omega
  have hplace : foundPlace l i j ≤ j := max_le hocc.le hstart
  obtain ⟨es₁, es₂, hsplit, hfront⟩ := hocc.split hstart hend
  refine ⟨_, es₁, es₂, List.getElem?_eq_getElem (hplace.trans_lt hocc.lt), ?_, hsplit, hfront⟩
  exact (hocc.iff _ _).mpr ⟨le_max_left _ _, hplace⟩

/-- **A dictionary of the writer answers** with the value at `foundPlace`. -/
theorem Stored.answers (h : Stored params l es d) (hn : ceilDiv es.length l < 2 ^ 16)
    (hbits : 0 < params.nBits) (hl : 0 < l) (hsize : ∀ e ∈ es, e.size ≤ 8190) : Answers d l es := by
  intro heap key i j hocc
  obtain ⟨e, es₁, es₂, hget, rfl, hsplit, hfront⟩ := blockEntries_of_occupies hl hocc
  refine ⟨e, hget, rfl, ?_⟩
  have hin : e ∈ es := List.mem_of_getElem? hget
  have hle : e.key.size + e.value.size ≤ 8190 := hsize e hin
  have hsel := selectedBlock_of_occupies hl h.sorted hocc (show e.key.size < 2 ^ 31 by omega)
  have hj : j / l * l < es.length := (lt_of_lt_ceilDiv (lt_of_selectedBlock hsel)).2
  -- the scan of the block stops at the entry
  have hat := h.atEntries hl hj
  have hstart : valueStart e.key (blockOf l es (j / l)).offset (blockEntries l es (j / l)) =
      some ((blockOf l es (j / l)).offset + (entriesBytes es₁).length + e.key.size) := by
    rw [hsplit, valueStart_append hfront, valueStart, if_pos rfl]
  have hheld := h.holds_block (j / l)
  rw [hsplit] at hheld
  have hscan := (h.returns_inBlock_iff hl hj).mpr
    ((hat.halts_iff (blockEntries_ne_nil hl hj)).mpr
      ((hat.scanFrom_of_some (fits_blockEntries hsize) hstart _).mpr rfl))
  have hoffset := (h.returns_dictionaryLookupKey_iff hn heap
    (passes_top d (show e.key.size < 2 ^ 31 by omega) l es) _).mpr
      (Or.inr ⟨h.not_rejects_of_mem hbits hin, j / l, hsel, hscan⟩)
  -- and the value behind its key is read
  have hpos := e.key.size_pos
  apply hoffset.bind
  simp only [show (blockOf l es (j / l)).offset + (entriesBytes es₁).length + e.key.size ≠ 0 by omega,
    if_false]
  exact (returns_readCstring (holds_value hheld) h.length_lt
    (show e.value.size ≤ 8191 by omega)).map fun value => (.ok (some value) : Result (Option CString))

end stored

section written

variable {n : ℕ} {params : BloomFilterHeader} {es : List Entry} {log : List Write}
  {prev pre post : Bytes}

/-- What a finished dictionary answers, wherever it lies in its file. -/
theorem answers_of_written (hparams : params.Ok) (hbits : 0 < params.nBits) (hn : n < 2 ^ 31)
    (hrun : writeDictionary n params es = .ok log) (hsize : ∀ e ∈ accepted none es, e.size ≤ 8190)
    (hlt : (pre ++ applyWrites prev log ++ post).length < 2 ^ 63) :
    ∃ d, (∀ heap, newForFd heap (pre ++ applyWrites prev log ++ post) pre.length = .ok d) ∧
      Answers d (ceilSqrt n) (accepted none es) := by
  obtain ⟨hlen, hwritten, -⟩ := writeDictionary_spec hparams hn hrun prev
  obtain ⟨d, hopen, hstored⟩ := stored_of_written hwritten hlt
  refine ⟨d, hopen, fun heap key i j hocc => ?_⟩
  have hpos : 0 < n := by
    rw [← hlen]
    exact Nat.zero_lt_of_lt hocc.lt
  exact hstored.answers (ceilDiv_accepted_lt hn hlen) hbits (ceilSqrt_pos hpos) hsize heap key i j hocc

/-- The accepted entries are sorted, so every accepted key has its places. -/
theorem exists_occupies_accepted (hparams : params.Ok) (hn : n < 2 ^ 31)
    (hrun : writeDictionary n params es = .ok log) {e : Entry} (he : e ∈ accepted none es) :
    ∃ i j, Occupies Entry.key (accepted none es) e.key i j := by
  obtain ⟨-, hwritten, -⟩ := writeDictionary_spec hparams hn hrun []
  exact exists_occupies hwritten.sorted he

/-- **Which value is found.** Every accepted key occupies places `i` to `j` of the accepted entries, and
its lookup returns the value of the first of them that lies in the block of the last: blocks have
`⌈√n⌉` entries. So the first value of a key is found unless a block starts among its entries; then it
is the value with which the last such block starts. -/
theorem lookupKey_answers (hparams : params.Ok) (hbits : 0 < params.nBits) (hn : n < 2 ^ 31)
    (hrun : writeDictionary n params es = .ok log) (hsize : ∀ e ∈ accepted none es, e.size ≤ 8190)
    (hlt : (pre ++ applyWrites prev log ++ post).length < 2 ^ 63) :
    ∃ d, (∀ heap, newForFd heap (pre ++ applyWrites prev log ++ post) pre.length = .ok d) ∧
      ∀ e ∈ accepted none es, ∃ i j, Occupies Entry.key (accepted none es) e.key i j ∧
        ∃ e', (accepted none es)[foundPlace (ceilSqrt n) i j]? = some e' ∧ e'.key = e.key ∧
          ∀ heap, Returns (fun fuel => lookupKey fuel heap d e.key) (.ok (some e'.value)) := by
  obtain ⟨d, hopen, hanswers⟩ := answers_of_written hparams hbits hn hrun hsize hlt
  refine ⟨d, hopen, fun e he => ?_⟩
  obtain ⟨i, j, hocc⟩ := exists_occupies_accepted hparams hn hrun he
  obtain ⟨e', hget, hkey, -⟩ := hanswers (fun n => .replicate n 0) _ i j hocc
  refine ⟨i, j, hocc, e', hget, hkey, fun heap => ?_⟩
  obtain ⟨e'', hget', -, hlookup⟩ := hanswers heap _ i j hocc
  rw [hget] at hget'
  cases hget'
  exact hlookup

end written

/-! ## A key in two blocks -/

/-- Four entries in two blocks, with one key in the second, the third and the fourth. -/
def sameKeyEntries : List Entry :=
  [⟨⟨ascii "ant", by decide⟩, ⟨ascii "six", by decide⟩⟩,
    ⟨⟨ascii "bee", by decide⟩, ⟨ascii "four", by decide⟩⟩,
    ⟨⟨ascii "bee", by decide⟩, ⟨ascii "five", by decide⟩⟩,
    ⟨⟨ascii "bee", by decide⟩, ⟨ascii "seven", by decide⟩⟩]

/-- What is written for them. -/
def sameKeyLog : List Write := (writeDictionary 4 wordsParams sameKeyEntries).toOption.getD []

/-- What is written for the entries with one key. -/
theorem writeDictionary_sameKey : writeDictionary 4 wordsParams sameKeyEntries = .ok sameKeyLog := by
  obtain ⟨log, hlog⟩ := writeDictionary_isOk wordsParams_ok (by decide) (by decide)
    (show (accepted none sameKeyEntries).length = 4 by decide)
  rw [sameKeyLog, hlog]
  rfl

/-- The lookup finds an entry of the repeated key. -/
theorem lookupKey_answers_sameKey :
    ∃ d, (∀ heap, newForFd heap ([7] ++ applyWrites [] sameKeyLog ++ [9]) 1 = .ok d) ∧
      ∀ e ∈ accepted none sameKeyEntries, ∃ i j,
        Occupies Entry.key (accepted none sameKeyEntries) e.key i j ∧
        ∃ e', (accepted none sameKeyEntries)[foundPlace (ceilSqrt 4) i j]? = some e' ∧ e'.key = e.key ∧
          ∀ heap, Returns (fun fuel => lookupKey fuel heap d e.key) (.ok (some e'.value)) :=
  lookupKey_answers wordsParams_ok (by decide) (by decide) writeDictionary_sameKey (by decide)
    (by decide +kernel)

/-- The key at the places 1 to 3 has the value of place 2. -/
example : foundPlace (ceilSqrt 4) 1 3 = 2 := by decide +kernel

end EosShard.Dictionary
