import EosShard.V2.Reader

/-!
# What opening a V2 shard loads

`records_length` is a 64-bit number from the file; its product with the record size is cut to an
`int` before it sizes the buffer, the read and the test of the read. `OpensExactly fd` is what the
traversals rely on: a successful open has loaded all `records_length` records, and a failing one
reports a corrupt file.

* `implV2New_cases`: the outcomes of an open, one per exit of the function.
* `opensExactly_iff`: an open is exact if and only if `RecordCountFits`, that is, for a header with
  the right magic, the product is below `2 ^ 31`, or the cut product is not negative and the file
  ends before that many bytes.
* `loaded_of_implV2New`: below `2 ^ 31` a successful open is exact.
-/

namespace EosShard.V2

open EosShard.Found

/-- The header of a file that has one. -/
def headerOf (fd : Bytes) : Hdr := Hdr.ofBytes (slice fd 0 Hdr.sizeof)

/-- The file starts with a complete header with the right magic. -/
def HasHeader (fd : Bytes) : Prop :=
  (slice fd 0 Hdr.sizeof).length = Hdr.sizeof ∧ (headerOf fd).magic = magic

/-- `records_length * sizeof (*self->records)`, as the `int` it is assigned to. -/
def bufSizeOf (hdr : Hdr) : ℤ := asInt32 (hdr.recordsLength * Record.sizeof % 2 ^ 64)

/-- The records start at an offset of 64 bits. -/
theorem recordsStart_headerOf_lt (fd : Bytes) : (headerOf fd).recordsStart < 2 ^ 64 := by
  have h := leNat_lt (slice (slice fd 0 Hdr.sizeof) 20 8)
  have h' : 256 ^ (slice (slice fd 0 Hdr.sizeof) 20 8).length ≤ 256 ^ 8 :=
    Nat.pow_le_pow_right (by omega) (length_slice_le _ _ _)
  exact lt_of_lt_of_le h h'

/-- How a file opens, test by test. -/
theorem implV2New_eq (fd : Bytes) :
    implV2New fd =
      if (slice fd 0 Hdr.sizeof).length ≠ Hdr.sizeof then .error corrupt
      else if (headerOf fd).magic ≠ magic then .error corrupt
      else if bufSizeOf (headerOf fd) < 0 then .error .abort
      else
        match pread fd (bufSizeOf (headerOf fd)).toNat (headerOf fd).recordsStart with
        | some records =>
            if records.length ≠ (bufSizeOf (headerOf fd)).toNat then .error corrupt
            else .ok ⟨fd, headerOf fd, records⟩
        | none => .error corrupt := rfl

/-- The exits of an open. -/
theorem implV2New_cases (fd : Bytes) :
    (¬ HasHeader fd ∧ implV2New fd = .error corrupt) ∨
    (HasHeader fd ∧ bufSizeOf (headerOf fd) < 0 ∧ implV2New fd = .error .abort) ∨
    (HasHeader fd ∧ 0 ≤ bufSizeOf (headerOf fd) ∧
      preadExact fd (bufSizeOf (headerOf fd)).toNat (headerOf fd).recordsStart = none ∧
      implV2New fd = .error corrupt) ∨
    (HasHeader fd ∧ 0 ≤ bufSizeOf (headerOf fd) ∧
      ∃ records, preadExact fd (bufSizeOf (headerOf fd)).toNat (headerOf fd).recordsStart =
          some records ∧
        implV2New fd = .ok ⟨fd, headerOf fd, records⟩) := by
  rw [implV2New_eq]
  unfold HasHeader preadExact
  by_cases hlen : (slice fd 0 Hdr.sizeof).length = Hdr.sizeof
  swap
  · exact Or.inl ⟨fun h => hlen h.1, if_pos hlen⟩
  by_cases hmagic : (headerOf fd).magic = magic
  swap
  · exact Or.inl ⟨fun h => hmagic h.2, by rw [if_neg (not_not.mpr hlen), if_pos hmagic]⟩
  rw [if_neg (not_not.mpr hlen), if_neg (not_not.mpr hmagic)]
  by_cases hneg : bufSizeOf (headerOf fd) < 0
  · exact Or.inr (Or.inl ⟨⟨hlen, hmagic⟩, hneg, if_pos hneg⟩)
  rw [if_neg hneg]
  rcases hp : pread fd (bufSizeOf (headerOf fd)).toNat (headerOf fd).recordsStart with _ | bs
  · exact Or.inr (Or.inr (Or.inl ⟨⟨hlen, hmagic⟩, not_lt.mp hneg, rfl, rfl⟩))
  · by_cases hbs : bs.length = (bufSizeOf (headerOf fd)).toNat
    · exact Or.inr (Or.inr (Or.inr ⟨⟨hlen, hmagic⟩, not_lt.mp hneg, bs, by simp [hbs],
        if_neg (not_not.mpr hbs)⟩))
    · exact Or.inr (Or.inr (Or.inl ⟨⟨hlen, hmagic⟩, not_lt.mp hneg, by simp [hbs], if_pos hbs⟩))

/-- A successful open has loaded exactly the record table its header describes, so that every index
below `records_length` lies in the buffer; any other outcome is the error of a corrupt file. -/
def OpensExactly (fd : Bytes) : Prop :=
  (∀ impl, implV2New fd = .ok impl →
    impl.hdr = headerOf fd ∧
      impl.records = slice fd impl.hdr.recordsStart (impl.hdr.recordsLength * Record.sizeof) ∧
      impl.records.length = impl.hdr.recordsLength * Record.sizeof ∧
      ∀ i, i < impl.hdr.recordsLength → (i + 1) * Record.sizeof ≤ impl.records.length) ∧
    ∀ e, implV2New fd = .error e → e = corrupt

/-- The record count of the file does not wrap into a count that can be loaded: with a complete
header of the right magic, the table has fewer than `2 ^ 31` bytes, or its size cut to an `int` is
not negative and the file ends before that many bytes from `records_start` on. -/
def RecordCountFits (fd : Bytes) : Prop :=
  HasHeader fd → (headerOf fd).recordsLength * Record.sizeof < 2 ^ 31 ∨
    0 ≤ bufSizeOf (headerOf fd) ∧
      preadExact fd (bufSizeOf (headerOf fd)).toNat (headerOf fd).recordsStart = none

/-- A table below 2 GiB has its size. -/
theorem bufSizeOf_of_lt {hdr : Hdr} (h : hdr.recordsLength * Record.sizeof < 2 ^ 31) :
    bufSizeOf hdr = (hdr.recordsLength * Record.sizeof : ℕ) := by
  unfold bufSizeOf
  rw [Nat.mod_eq_of_lt (by omega), asInt32_of_lt h]

/-- The size of the buffer is an `int`. -/
theorem bufSizeOf_lt (hdr : Hdr) : bufSizeOf hdr < 2 ^ 31 := by
  unfold bufSizeOf asInt32
  have := Int.bmod_lt (x := ((hdr.recordsLength * Record.sizeof % 2 ^ 64 : ℕ) : ℤ)) (m := 2 ^ 32)
    (by norm_num)
  omega

/-- A table below `2 ^ 31` bytes is loaded whole. -/
theorem loaded_of_implV2New {fd : Bytes} {impl : ShardFileImplV2} (h : implV2New fd = .ok impl)
    (hlt : impl.hdr.recordsLength * Record.sizeof < 2 ^ 31) :
    impl.fd = fd ∧ impl.hdr = headerOf fd ∧
      impl.records = slice fd impl.hdr.recordsStart (impl.hdr.recordsLength * Record.sizeof) ∧
      impl.records.length = impl.hdr.recordsLength * Record.sizeof := by
  rcases implV2New_cases fd with ⟨-, he⟩ | ⟨-, -, he⟩ | ⟨-, -, -, he⟩ | ⟨-, -, records, hp, hok⟩
  · rw [he] at h; cases h
  · rw [he] at h; cases h
  · rw [he] at h; cases h
  · rw [hok] at h
    cases h
    simp only at hlt
    have hm : (headerOf fd).recordsStart % 2 ^ 64 = (headerOf fd).recordsStart :=
      Nat.mod_eq_of_lt (recordsStart_headerOf_lt fd)
    rw [bufSizeOf_of_lt hlt, Int.toNat_natCast, preadExact_eq_some_iff, hm] at hp
    exact ⟨rfl, rfl, hp.2.1.symm, hp.2.2⟩

/-- **An open is exact if and only if the record count fits.** -/
theorem opensExactly_iff (fd : Bytes) : OpensExactly fd ↔ RecordCountFits fd := by
  constructor
  · rintro ⟨hok, herr⟩ hh
    rcases implV2New_cases fd with ⟨hn, -⟩ | ⟨-, -, he⟩ | ⟨-, h0, hp, -⟩ | ⟨-, h0, records, hp, he⟩
    · exact absurd hh hn
    · exact absurd (herr _ he) (by simp [corrupt])
    · exact Or.inr ⟨h0, hp⟩
    · -- the buffer has the cut size; it is the full size only if nothing was cut
      left
      obtain ⟨-, -, hlen, -⟩ := hok _ he
      have hcut := (preadExact_eq_some_iff.mp hp).2.2
      have := bufSizeOf_lt (headerOf fd)
      simp only at hlen
      omega
  · intro hfits
    constructor
    · intro impl himpl
      rcases implV2New_cases fd with ⟨-, he⟩ | ⟨-, -, he⟩ | ⟨-, -, -, he⟩ |
        ⟨hh, h0, records, hp, he⟩
      · rw [he] at himpl; cases himpl
      · rw [he] at himpl; cases himpl
      · rw [he] at himpl; cases himpl
      · rcases hfits hh with hlt | ⟨-, hnone⟩
        · have hhdr : impl.hdr = headerOf fd := by
            rw [he] at himpl
            cases himpl
            rfl
          obtain ⟨-, -, hrec, hlen⟩ := loaded_of_implV2New himpl (by rw [hhdr]; exact hlt)
          refine ⟨hhdr, hrec, hlen, fun i hi => ?_⟩
          rw [hlen]
          exact Nat.mul_le_mul_right _ hi
        · rw [hnone] at hp
          cases hp
    · intro e hE
      rcases implV2New_cases fd with ⟨-, he⟩ | ⟨hh, hneg, he⟩ | ⟨-, -, -, he⟩ | ⟨-, -, records, -, he⟩
      · rw [he] at hE; cases hE; rfl
      · rcases hfits hh with hlt | ⟨h0, -⟩
        · rw [bufSizeOf_of_lt hlt] at hneg
          omega
        · omega
      · rw [he] at hE; cases hE; rfl
      · rw [he] at hE; cases hE

/-- A 36-byte file whose header counts `2 ^ 30` records: their size is a multiple of `2 ^ 32`. -/
def wrappingFile : Bytes :=
  ({ magic := magic, flags := 0, recordsLength := 2 ^ 30, recordsStart := 36,
     stringConstantTableStart := 36 } : Hdr).toBytes

/-- The open of `wrappingFile` succeeds with an empty buffer. -/
theorem wrappingFile_not_opensExactly : ¬ OpensExactly wrappingFile := by
  intro h
  have hopen : implV2New wrappingFile = .ok ⟨wrappingFile, headerOf wrappingFile, []⟩ := by
    decide +kernel
  have hlen := (h.1 _ hopen).2.2.1
  have hn : (headerOf wrappingFile).recordsLength = 2 ^ 30 := by decide +kernel
  simp [hn] at hlen

end EosShard.V2
