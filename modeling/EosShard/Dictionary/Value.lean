import EosShard.Dictionary.Reader

/-!
# Reading a value

`read_cstring` reads up to 8191 bytes and goes on as long as it has not seen a NUL, but at the same
offset. A string that takes at most 8191 bytes with its NUL is read in the first iteration; after a
longer one the same bytes come again, and the loop is never left.

* `exists_returns_readCstring_iff`: when the loop ends.
* `readCstring_iff`: **when a string is read whole**, and with it a value that is looked up.
-/

namespace EosShard.Dictionary

open EosShard.Found

section value

variable {fd : Bytes} {offset : ℕ} {s : CString}

/-- One iteration over a string that lies in the file. -/
theorem readCstringStep_eq (h : Holds fd offset s.toBytes) (hlt : fd.length < 2 ^ 63) (string : Bytes) :
    readCstringStep fd offset string =
      if s.size ≤ chunkSize then .inr (cstr (string ++ slice fd offset chunkSize))
      else .inl (string ++ slice fd offset chunkSize) := by
  have hle := h.le_length (CString.toBytes_ne_nil s)
  rw [CString.length_toBytes] at hle
  have hpos := s.size_pos
  have hlen := length_slice fd offset chunkSize
  rw [readCstringStep, pread_eq (by omega)]
  simp only [overlay, List.drop_replicate, cstr_append_replicate_zero]
  by_cases hfit : s.size ≤ chunkSize
  · have hlast : s.length + 1 = s.size := rfl
    rw [if_pos hfit, cstr_slice_of_holds h hfit, if_pos (by omega)]
  · have hcut : (cstr (slice fd offset chunkSize)).length + 1 = chunkSize + 1 :=
      size_cstr_slice_of_holds h (not_le.mp hfit)
    rw [if_neg hfit, if_neg (by omega)]

/-- A string that fits into a chunk is read. -/
theorem returns_readCstring (h : Holds fd offset s.toBytes) (hlt : fd.length < 2 ^ 63)
    (hfit : s.size ≤ chunkSize) : Returns (fun fuel => readCstring fuel fd offset) s := by
  refine (halts_of_inr ?_).returns
  rw [readCstringStep_eq h hlt, if_pos hfit, List.nil_append, cstr_slice_of_holds h hfit]

/-- **The string is read exactly if it fits into a chunk**; otherwise nothing is ever returned. -/
theorem exists_returns_readCstring_iff (h : Holds fd offset s.toBytes) (hlt : fd.length < 2 ^ 63) :
    (∃ s', Returns (fun fuel => readCstring fuel fd offset) s') ↔ s.size ≤ chunkSize := by
  constructor
  · rintro ⟨s', hs'⟩
    by_contra hfit
    refine not_halts_of_invariant (fun _ => True) (fun string _ => ⟨string ++ slice fd offset chunkSize, ?_, trivial⟩)
      trivial s'
      (returns_loop_iff.mp hs')
    rw [readCstringStep_eq h hlt, if_neg hfit]
  · exact fun hfit => ⟨s, returns_readCstring h hlt hfit⟩

/-- What a lookup answers once the offset of the value is known. -/
theorem returns_lookupKey_some_iff {heap : Heap} {d : EosShardDictionary} {key : CString} {value : ℕ}
    (hvalue : Returns (fun fuel => dictionaryLookupKey fuel heap d key) (.ok value))
    (hpos : value ≠ 0) :
    Returns (fun fuel => lookupKey fuel heap d key) (.ok (some s)) ↔
      Returns (fun fuel => readCstring fuel d.fd (d.offset + value)) s := by
  constructor
  · rintro ⟨n, hn⟩
    obtain ⟨m, hm⟩ := hvalue
    refine ⟨max n m, fun fuel hfuel => ?_⟩
    have hread : lookupKey fuel heap d key = some (.ok (some s)) :=
      hn fuel ((le_max_left n m).trans hfuel)
    have hoffset : dictionaryLookupKey fuel heap d key = some (.ok value) :=
      hm fuel ((le_max_right n m).trans hfuel)
    unfold lookupKey at hread
    rw [hoffset, Option.bind_some] at hread
    simp only [hpos, if_false] at hread
    obtain ⟨s', hs', heq⟩ := Option.map_eq_some_iff.mp hread
    cases heq
    exact hs'
  · intro hread
    refine hvalue.bind ?_
    simp only [hpos, if_false]
    exact hread.map fun value => (.ok (some value) : Result (Option CString))

/-- **A string is read whole exactly if it takes at most 8191 bytes** with its NUL, whatever follows
it in the file; and likewise for a value that is looked up, by any dictionary in the file. -/
theorem readCstring_iff (hlt : fd.length < 2 ^ 63) :
    (∀ offset, 0 ∈ fd.drop offset →
      (Returns (fun fuel => readCstring fuel fd offset) (cstr (fd.drop offset)) ↔
        (cstr (fd.drop offset)).size ≤ 8191)) ∧
      ∀ (d : EosShardDictionary) heap key value, d.fd = fd → value ≠ 0 →
        Returns (fun fuel => dictionaryLookupKey fuel heap d key) (.ok value) →
        0 ∈ fd.drop (d.offset + value) →
          (Returns (fun fuel => lookupKey fuel heap d key)
            (.ok (some (cstr (fd.drop (d.offset + value))))) ↔
            (cstr (fd.drop (d.offset + value))).size ≤ 8191) := by
  have key : ∀ offset, 0 ∈ fd.drop offset →
      (Returns (fun fuel => readCstring fuel fd offset) (cstr (fd.drop offset)) ↔
        (cstr (fd.drop offset)).size ≤ chunkSize) := by
    intro offset hnul
    have hheld := holds_cstr_drop hnul
    constructor
    · intro h
      exact (exists_returns_readCstring_iff hheld hlt).mp ⟨_, h⟩
    · exact returns_readCstring hheld hlt
  refine ⟨key, fun d heap name value hd hpos hvalue hnul => ?_⟩
  rw [returns_lookupKey_some_iff hvalue hpos, hd]
  exact key _ hnul

end value

/-- A file with one string of `n` characters. -/
def xFile (n : ℕ) : Bytes := List.replicate n 120 ++ [0]

/-- The string of the example takes the whole file. -/
theorem size_cstr_xFile (n : ℕ) : (cstr (xFile n)).size = n + 1 := by
  have hnul : (0 : UInt8) ∉ List.replicate n (120 : UInt8) := fun h =>
    absurd (List.eq_of_mem_replicate h) (by decide)
  unfold xFile
  rw [cstr_append_zero hnul []]
  exact congrArg (· + 1) List.length_replicate

/-- The file of the example is one string. -/
theorem length_xFile (n : ℕ) : (xFile n).length = n + 1 := by
  unfold xFile
  rw [List.length_append, List.length_replicate, List.length_singleton]

/-- The longest string that is read. -/
theorem readCstring_iff_xFile :
    Returns (fun fuel => readCstring fuel (xFile 8190) 0) (cstr (xFile 8190)) := by
  have hlt : (xFile 8190).length < 2 ^ 63 := by
    rw [length_xFile]
    norm_num
  have hnul : (0 : UInt8) ∈ (xFile 8190).drop 0 := List.mem_append_right _ (List.mem_singleton_self _)
  apply ((readCstring_iff hlt).1 0 hnul).mpr
  exact (size_cstr_xFile 8190).le

/-- One character more, and nothing is ever returned. -/
theorem xFile_not_returns :
    ¬ Returns (fun fuel => readCstring fuel (xFile 8191) 0) (cstr (xFile 8191)) := by
  intro hs
  have hnul : (0 : UInt8) ∈ (xFile 8191).drop 0 :=
    List.mem_append_right _ (List.mem_singleton_self _)
  have hheld : Holds (xFile 8191) 0 (cstr (xFile 8191)).toBytes := holds_cstr_drop hnul
  have hfit := (exists_returns_readCstring_iff hheld (by rw [length_xFile]; norm_num)).mp ⟨_, hs⟩
  rw [size_cstr_xFile] at hfit
  exact absurd hfit (by decide)

end EosShard.Dictionary
