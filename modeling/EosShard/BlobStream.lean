import EosShard.Found.Stream
import EosShard.ShardFile

/-!
# The stream of a blob

`eos-shard-blob-stream.c`: the seekable stream of the stored bytes of a blob.

* Positions are `goffset`s and sizes are `gsize`s. A sum that leaves its type is taken modulo `2 ^ 64`,
  and what is tested is the sum that comes out (`asInt64_mem_iff`: the test is right all the same).
* Each `read` calls `pread` once. What that call answers is up to the system (`Pread.Lawful`): an error,
  or any number of the bytes that it was asked for.
* `seek_spec` and `read_spec` say what one call does, at any position inside the blob; so no sequence of
  calls leaves it (`inside_after`).
* `streams_stay_inside`: the calls of any sequence, and the whole blob when it is read to its end.
-/

namespace EosShard

open EosShard.Found

/-! ## Integers -/

/-- A `goffset` that is assigned the integer `i`: its low 64 bits, signed. -/
def asInt64 (i : ℤ) : ℤ := Int.bmod i (2 ^ 64)

/-- A number in the range of 64 bits is not changed. -/
theorem asInt64_of_lt {i : ℤ} (h₁ : -2 ^ 63 ≤ i) (h₂ : i < 2 ^ 63) : asInt64 i = i := by
  unfold asInt64
  rw [Int.bmod_eq_of_le] <;> omega

/-- A number one range above wraps around once. -/
theorem asInt64_of_le {i : ℤ} (h₁ : 2 ^ 63 ≤ i) (h₂ : i < 2 ^ 64) : asInt64 i = i - 2 ^ 64 := by
  unfold asInt64
  rw [← Int.sub_bmod_right, Int.bmod_eq_of_le] <;> omega

/-- The result is in the range of 64 bits. -/
theorem asInt64_range (i : ℤ) : -2 ^ 63 ≤ asInt64 i ∧ asInt64 i < 2 ^ 63 := by
  have h₁ := Int.le_bmod (x := i) (m := 2 ^ 64) (by norm_num)
  have h₂ := Int.bmod_lt (x := i) (m := 2 ^ 64) (by norm_num)
  unfold asInt64
  omega

/-- To go through an unsigned number does not change the result. -/
theorem asInt64_uint64OfInt (i : ℤ) : asInt64 (uint64OfInt i) = asInt64 i := by
  unfold asInt64 uint64OfInt
  rw [Int.toNat_of_nonneg (by omega)]
  exact Int.emod_bmod i (2 ^ 64)

/-- A sum that leaves the range of `goffset` does not pass for a position. -/
theorem asInt64_mem_iff {i n : ℤ} (h₁ : -2 ^ 63 ≤ i) (h₂ : i < 2 ^ 64) (hn : n < 2 ^ 63) :
    (0 ≤ asInt64 i ∧ asInt64 i ≤ n) ↔ (0 ≤ i ∧ i ≤ n) := by
  rcases lt_or_ge i (2 ^ 63) with h | h
  · rw [asInt64_of_lt h₁ h]
  · rw [asInt64_of_le h h₂]
    omega

/-! ## The stream -/

/-- The stream of a blob (without the pointer to the shard file). Source: `eos-shard-blob-stream.c`,
`struct _EosShardBlobStream`. -/
structure EosShardBlobStream where
  /-- The position, a `goffset`. -/
  pos : ℤ
  blob : EosShardBlob
  deriving DecidableEq

/-- Source: `gio/gioenums.h`, `GSeekType`; `invalid` is any other value. -/
inductive GSeekType
  | cur
  | set
  | fromEnd
  | invalid
  deriving DecidableEq

/-- The errors of the stream. -/
inductive StreamError
  /-- `G_IO_ERROR_INVALID_ARGUMENT`, with a message. -/
  | invalidArgument (message : String)
  /-- An error of this library. -/
  | shard (e : GError)
  deriving DecidableEq

/-- What a `pread` on the shard file answers to a count and an offset: bytes, or the message of its
`errno`. -/
abbrev Pread := ℕ → ℤ → Except String Bytes

/-- A `pread` on a file: it yields no other bytes than those from the offset on, and at most as many
as it was asked for. -/
def Pread.Lawful (fd : Bytes) (pread : Pread) : Prop :=
  ∀ count offset bs, pread count offset = .ok bs → 0 ≤ offset ∧ bs <+: slice fd offset.toNat count

/-- A `pread` that is not cut short: what the file has of the requested bytes, if it has all of them. -/
def Pread.Full (fd : Bytes) (pread : Pread) : Prop :=
  ∀ count offset, 0 ≤ offset → (slice fd offset.toNat count).length = count →
    pread count offset = .ok (slice fd offset.toNat count)

namespace EosShardBlobStream

/-- Source: `eos-shard-blob-stream.c`, `_eos_shard_blob_stream_new_for_blob`. -/
def newForBlob (blob : EosShardBlob) : EosShardBlobStream := ⟨0, blob⟩

/-- Where a seek goes to, as the code computes it; `none` for a type that is none.
Source: `eos-shard-blob-stream.c`, `eos_shard_blob_stream_seek`. -/
def absolute (stream : EosShardBlobStream) (offset : ℤ) : GSeekType → Option ℤ
  | .cur => some (asInt64 (stream.pos + offset))
  | .set => some offset
  | .fromEnd => some (asInt64 (uint64OfInt (stream.blob.size + offset)))
  | .invalid => none

/-- Set the position.
Source: `eos-shard-blob-stream.c`, `eos_shard_blob_stream_seek`. -/
def seek (stream : EosShardBlobStream) (offset : ℤ) (type : GSeekType) :
    EosShardBlobStream × Option StreamError :=
  match stream.absolute offset type with
  | none => (stream, some (.invalidArgument "Invalid GSeekType supplied"))
  | some absolute =>
      if absolute < 0 ∨ stream.blob.size < uint64OfInt absolute then
        (stream, some (.invalidArgument "Invalid seek request"))
      else ({ stream with pos := absolute }, none)

/-- The count and the offset that a read passes to `pread`. `eos_shard_blob_get_offset` returns a
`goffset`.
Source: `eos-shard-blob-stream.c`, `eos_shard_blob_stream_read`. -/
def preadCall (stream : EosShardBlobStream) (count : ℕ) : ℕ × ℤ :=
  (min count (uint64OfInt (stream.blob.size - stream.pos)),
    asInt64 (asInt64 stream.blob.offs + stream.pos))

/-- Read from the position on.
Source: `eos-shard-blob-stream.c`, `eos_shard_blob_stream_read`. -/
def read (stream : EosShardBlobStream) (count : ℕ) (pread : Pread) :
    EosShardBlobStream × Except StreamError Bytes :=
  match pread (stream.preadCall count).1 (stream.preadCall count).2 with
  | .error strerror =>
      (stream, .error (.shard ⟨.blobStreamRead, "Read failed: " ++ strerror⟩))
  | .ok bs => ({ stream with pos := asInt64 (stream.pos + bs.length) }, .ok bs)

/-- A call on a stream. -/
inductive Op
  | seek (offset : ℤ) (type : GSeekType)
  /-- A read, with what the system answers to its `pread`. -/
  | read (count : ℕ) (pread : Pread)

/-- A call on the stream of a file: its offset is a `goffset`, its `pread` reads the file. -/
def Op.Possible (fd : Bytes) : Op → Prop
  | .seek offset _ => -2 ^ 63 ≤ offset ∧ offset < 2 ^ 63
  | .read _ pread => pread.Lawful fd

/-- The stream after a call. -/
def apply (stream : EosShardBlobStream) : Op → EosShardBlobStream
  | .seek offset type => (stream.seek offset type).1
  | .read count pread => (stream.read count pread).1

/-- The position is in the blob. -/
structure Inside (blob : EosShardBlob) (stream : EosShardBlobStream) : Prop where
  blob_eq : stream.blob = blob
  nonneg : 0 ≤ stream.pos
  le_size : stream.pos ≤ blob.size

/-! ## One call -/

/-- Where a seek should go to. -/
def target (stream : EosShardBlobStream) (offset : ℤ) : GSeekType → Option ℤ
  | .cur => some (stream.pos + offset)
  | .set => some offset
  | .fromEnd => some (stream.blob.size + offset)
  | .invalid => none

/-- A seek succeeds if its target is in the blob, and goes there; else nothing changes. -/
structure SeekOk (stream : EosShardBlobStream) (offset : ℤ) (type : GSeekType) : Prop where
  ok_iff : (stream.seek offset type).2 = none ↔
    ∃ t, stream.target offset type = some t ∧ 0 ≤ t ∧ t ≤ stream.blob.size
  pos_eq : (stream.seek offset type).2 = none →
    stream.target offset type = some (stream.seek offset type).1.pos
  blob_eq : (stream.seek offset type).1.blob = stream.blob
  unchanged : (stream.seek offset type).2 ≠ none → (stream.seek offset type).1 = stream

/-- Where the blob starts in the file. -/
def start (stream : EosShardBlobStream) : ℤ := asInt64 stream.blob.offs

/-- A read asks for bytes of the blob only (a negative offset has none). If it succeeds, it yields the
bytes of the blob from the position on, at most `count`, and the position moves behind them; else
nothing changes. -/
structure ReadOk (fd : Bytes) (stream : EosShardBlobStream) (count : ℕ) (pread : Pread) : Prop where
  within : 0 ≤ (stream.preadCall count).2 → stream.start ≤ (stream.preadCall count).2 ∧
    (stream.preadCall count).2 + (stream.preadCall count).1 ≤ stream.start + stream.blob.size
  ok : ∀ bs, (stream.read count pread).2 = .ok bs →
    bs.length ≤ count ∧ 0 ≤ stream.start + stream.pos ∧
      bs = slice fd (stream.start + stream.pos).toNat bs.length ∧
      stream.pos + bs.length ≤ stream.blob.size ∧
      (stream.read count pread).1 = { stream with pos := stream.pos + bs.length }
  unchanged : ∀ e, (stream.read count pread).2 = .error e → (stream.read count pread).1 = stream

variable {fd : Bytes} {blob : EosShardBlob} {stream : EosShardBlobStream}

/-- The test of the code on a position. -/
theorem seek_test_iff {n : ℕ} {a : ℤ} (ha : a < 2 ^ 63) :
    (a < 0 ∨ n < uint64OfInt a) ↔ ¬ (0 ≤ a ∧ a ≤ n) := by
  rcases lt_or_ge a 0 with hneg | hnonneg
  · exact iff_of_true (Or.inl hneg) fun h => absurd h.1 (not_le.mpr hneg)
  · have huint : uint64OfInt a = a.toNat := by
      unfold uint64OfInt
      rw [Int.emod_eq_of_lt hnonneg (by omega)]
    rw [huint]
    omega

/-- **What a seek does**, in terms of its exact target. -/
theorem seek_eq (h : Inside blob stream) (hsize : blob.size < 2 ^ 63) {offset : ℤ}
    (h₁ : -2 ^ 63 ≤ offset) (h₂ : offset < 2 ^ 63) (type : GSeekType) :
    stream.seek offset type =
      match stream.target offset type with
      | none => (stream, some (.invalidArgument "Invalid GSeekType supplied"))
      | some t =>
          if 0 ≤ t ∧ t ≤ blob.size then ({ stream with pos := t }, none)
          else (stream, some (.invalidArgument "Invalid seek request")) := by
  have hpos := h.nonneg
  have hle := h.le_size
  -- a computed target `a` and the exact one `t`
  have key : ∀ a t : ℤ, a < 2 ^ 63 → ((0 ≤ a ∧ a ≤ blob.size) ↔ (0 ≤ t ∧ t ≤ blob.size)) →
      (0 ≤ t ∧ t ≤ blob.size → a = t) →
      (if a < 0 ∨ stream.blob.size < uint64OfInt a then
          (stream, some (.invalidArgument "Invalid seek request"))
        else ({ stream with pos := a }, none)) =
      if 0 ≤ t ∧ t ≤ blob.size then (({ stream with pos := t }, none) :
          EosShardBlobStream × Option StreamError)
        else (stream, some (.invalidArgument "Invalid seek request")) := by
    intro a t ha hiff heq
    rw [h.blob_eq]
    by_cases ht : 0 ≤ t ∧ t ≤ blob.size
    · rw [if_pos ht, if_neg (by rw [seek_test_iff ha, not_not]; exact hiff.mpr ht), heq ht]
    · rw [if_neg ht, if_pos ((seek_test_iff ha).mpr fun hbad => ht (hiff.mp hbad))]
  unfold seek
  cases type with
  | cur =>
      refine key _ _ (asInt64_range _).2 (asInt64_mem_iff (by omega) (by omega) (by omega)) ?_
      intro ht
      exact asInt64_of_lt (by omega) (by omega)
  | set => exact key _ _ h₂ Iff.rfl fun _ => rfl
  | fromEnd =>
      simp only [absolute, target, h.blob_eq]
      rw [asInt64_uint64OfInt]
      rw [h.blob_eq] at key
      refine key _ _ (asInt64_range _).2 (asInt64_mem_iff (by omega) (by omega) (by omega)) ?_
      intro ht
      exact asInt64_of_lt (by omega) (by omega)
  | invalid => rfl

/-- **A seek** from inside goes to its target if that is in the blob, and fails else. -/
theorem seek_spec (h : Inside blob stream) (hsize : blob.size < 2 ^ 63) {offset : ℤ}
    (h₁ : -2 ^ 63 ≤ offset) (h₂ : offset < 2 ^ 63) (type : GSeekType) :
    SeekOk stream offset type := by
  have hseek := seek_eq h hsize h₁ h₂ type
  cases ht : stream.target offset type with
  | none =>
      rw [ht] at hseek
      refine ⟨?_, ?_, ?_, ?_⟩ <;> rw [hseek]
      · simp [ht]
      · intro hnone
        cases hnone
      · intro _
        rfl
  | some t =>
      rw [ht] at hseek
      by_cases hin : 0 ≤ t ∧ t ≤ blob.size
      · simp only [hin, and_self, if_true] at hseek
        refine ⟨?_, ?_, ?_, ?_⟩ <;> rw [hseek]
        · rw [ht, h.blob_eq]
          exact ⟨fun _ => ⟨t, rfl, hin⟩, fun _ => rfl⟩
        · intro _
          exact ht
        · intro hne
          exact absurd rfl hne
      · simp only [hin, if_false] at hseek
        refine ⟨?_, ?_, ?_, ?_⟩ <;> rw [hseek]
        · rw [ht, h.blob_eq]
          constructor
          · intro hnone
            cases hnone
          · rintro ⟨t', ht', hin'⟩
            cases ht'
            exact absurd hin' hin
        · intro hnone
          cases hnone
        · intro _
          rfl

/-- A read asks for no more than what is left of the blob. -/
theorem preadCall_fst (h : Inside blob stream) (hsize : blob.size < 2 ^ 63) (count : ℕ) :
    (stream.preadCall count).1 = min count (blob.size - stream.pos.toNat) := by
  have hpos := h.nonneg
  have hle := h.le_size
  unfold preadCall uint64OfInt
  rw [h.blob_eq, Int.emod_eq_of_lt (by omega) (by omega)]
  simp only
  omega

/-- A sum that leaves the range of `goffset` is negative, and no offset. -/
theorem preadCall_snd (h : Inside blob stream) (hsize : blob.size < 2 ^ 63) (count : ℕ)
    (hnonneg : 0 ≤ (stream.preadCall count).2) :
    (stream.preadCall count).2 = stream.start + stream.pos := by
  have hpos := h.nonneg
  have hle := h.le_size
  have hrange := asInt64_range stream.blob.offs
  unfold preadCall at hnonneg ⊢
  unfold start
  simp only at hnonneg ⊢
  rcases lt_or_ge (asInt64 stream.blob.offs + stream.pos) (2 ^ 63) with hlt | hge
  · exact asInt64_of_lt (by omega) hlt
  · rw [asInt64_of_le hge (by omega)] at hnonneg
    omega

/-- **A read** from inside gives bytes of the blob, and moves by as many. -/
theorem read_spec (h : Inside blob stream) (hsize : blob.size < 2 ^ 63) (count : ℕ) {pread : Pread}
    (hpread : pread.Lawful fd) : ReadOk fd stream count pread := by
  have hpos := h.nonneg
  have hle := h.le_size
  have hcount := preadCall_fst h hsize count
  have hoffset := preadCall_snd h hsize count
  refine ⟨fun hnonneg => ?_, fun bs hok => ?_, fun e herror => ?_⟩
  · rw [hoffset hnonneg, hcount, h.blob_eq]
    omega
  · unfold read at hok ⊢
    cases hp : pread (stream.preadCall count).1 (stream.preadCall count).2 with
    | error strerror =>
        rw [hp] at hok
        cases hok
    | ok cs =>
        rw [hp] at hok
        cases hok
        obtain ⟨hnonneg, hprefix⟩ := hpread _ _ _ hp
        rw [hoffset hnonneg, hcount] at hprefix
        have hlen : bs.length ≤ min count (blob.size - stream.pos.toNat) :=
          hprefix.length_le.trans (length_slice_le _ _ _)
        have hbs := List.prefix_iff_eq_take.mp hprefix
        rw [slice, List.take_take, min_eq_left hlen] at hbs
        refine ⟨by omega, ?_, hbs, ?_, ?_⟩
        · rw [← hoffset hnonneg]
          exact hnonneg
        · rw [h.blob_eq]
          omega
        · simp only
          rw [asInt64_of_lt (by omega) (by omega)]
  · unfold read at herror ⊢
    cases hp : pread (stream.preadCall count).1 (stream.preadCall count).2 with
    | error strerror => rfl
    | ok cs =>
        rw [hp] at herror
        cases herror

/-! ## Sequences of calls -/

/-- The stream of a blob after some calls. -/
def after (blob : EosShardBlob) (ops : List Op) : EosShardBlobStream :=
  ops.foldl apply (newForBlob blob)

/-- A new stream is inside of its blob. -/
theorem inside_newForBlob (blob : EosShardBlob) : Inside blob (newForBlob blob) :=
  ⟨rfl, le_refl _, Int.natCast_nonneg _⟩

/-- Every operation keeps the stream inside. -/
theorem Inside.apply (h : Inside blob stream) (hsize : blob.size < 2 ^ 63) {op : Op}
    (hop : op.Possible fd) : Inside blob (stream.apply op) := by
  cases op with
  | seek offset type =>
      have hspec := seek_spec h hsize hop.1 hop.2 type
      show Inside blob (stream.seek offset type).1
      by_cases hok : (stream.seek offset type).2 = none
      · obtain ⟨t, ht, hnonneg, hle⟩ := hspec.ok_iff.mp hok
        have hpos := hspec.pos_eq hok
        rw [ht, Option.some.injEq] at hpos
        rw [h.blob_eq] at hle
        exact ⟨hspec.blob_eq.trans h.blob_eq, hpos ▸ hnonneg, hpos ▸ hle⟩
      · rw [hspec.unchanged hok]
        exact h
  | read count pread =>
      have hspec := read_spec h hsize count hop
      show Inside blob (stream.read count pread).1
      cases hread : (stream.read count pread).2 with
      | error e =>
          rw [hspec.unchanged e hread]
          exact h
      | ok bs =>
          obtain ⟨-, -, -, hle, heq⟩ := hspec.ok bs hread
          have hpos := h.nonneg
          rw [h.blob_eq] at hle
          rw [heq]
          exact ⟨h.blob_eq, by simp only; omega, hle⟩

/-- **No sequence of calls leaves the blob.** -/
theorem inside_after (hsize : blob.size < 2 ^ 63) {ops : List Op}
    (hops : ∀ op ∈ ops, op.Possible fd) : Inside blob (after blob ops) := by
  have key : ∀ stream, Inside blob stream → Inside blob (ops.foldl apply stream) := by
    induction ops with
    | nil =>
        intro stream h
        exact h
    | cons op ops ih =>
        intro stream h
        exact ih (fun op' hop' => hops op' (List.mem_cons_of_mem op hop')) _
          (h.apply hsize (hops op List.mem_cons_self))
  exact key _ (inside_newForBlob blob)

/-! ## Reading the blob to its end -/

/-- A read as a call of a stream that is read to its end. -/
def readCall (stream : EosShardBlobStream) (call : ℕ × Pread) : Option (Bytes × EosShardBlobStream) :=
  match stream.read call.1 call.2 with
  | (stream', .ok bs) => some (bs, stream')
  | (_, .error _) => none

/-- The bytes of the blob from the position on. -/
def left (fd : Bytes) (stream : EosShardBlobStream) : Bytes :=
  slice fd (stream.start + stream.pos).toNat (stream.blob.size - stream.pos).toNat

/-- An extent that the file has does not leave the range of `goffset`. -/
theorem start_add_pos_lt {a pos : ℤ} {len size : ℕ} (ha : a < 2 ^ 63) (hnonneg : 0 ≤ a)
    (hle : pos ≤ size) (hlen : len < 2 ^ 63) (hfull : min size (len - a.toNat) = size) :
    a + pos < 2 ^ 63 := by
  omega

/-- A part of an extent that is in the file is in the file. -/
theorem length_slice_add {a pos : ℤ} {size n : ℕ} (hnonneg : 0 ≤ a) (hpos : 0 ≤ pos)
    (hfull : (slice fd a.toNat size).length = size) (hn : n ≤ size - pos.toNat) :
    (slice fd (a + pos).toNat n).length = n := by
  rw [length_slice] at hfull ⊢
  omega

/-- A full read inside the blob yields as many bytes as it asks for. -/
theorem read_eq_of_full (h : Inside blob stream) (hsize : blob.size < 2 ^ 63)
    (hfd : fd.length < 2 ^ 63) (hstart : 0 ≤ stream.start)
    (hfull : (slice fd stream.start.toNat blob.size).length = blob.size) (count : ℕ) {pread : Pread}
    (hpread : pread.Full fd) :
    ∃ bs, (stream.read count pread).2 = .ok bs ∧
      bs.length = min count (blob.size - stream.pos.toNat) := by
  have hpos := h.nonneg
  have hle := h.le_size
  have hfst := preadCall_fst h hsize count
  have hlt : stream.start + stream.pos < 2 ^ 63 := by
    rw [length_slice] at hfull
    exact start_add_pos_lt (asInt64_range _).2 hstart hle hfd hfull
  have hsnd : (stream.preadCall count).2 = stream.start + stream.pos := by
    have hsum := add_nonneg hstart hpos
    unfold preadCall
    unfold start at hsum hlt ⊢
    rw [asInt64_of_lt (by omega) hlt]
  obtain ⟨n, hn⟩ : ∃ n, n = min count (blob.size - stream.pos.toNat) := ⟨_, rfl⟩
  have hlen : (slice fd (stream.start + stream.pos).toNat n).length = n :=
    length_slice_add hstart hpos hfull (hn.trans_le (min_le_right _ _))
  have hanswer := hpread n (stream.start + stream.pos) (add_nonneg hstart hpos) hlen
  refine ⟨slice fd (stream.start + stream.pos).toNat n, ?_, ?_⟩
  · unfold read
    rw [hfst, hsnd, ← hn, hanswer]
  · rw [hlen, hn]

/-- A read that is not cut short yields what it is asked for, as far as the blob has it. -/
theorem yieldsPiece_readCall (h : Inside blob stream) (hsize : blob.size < 2 ^ 63)
    (hfd : fd.length < 2 ^ 63) (hstart : 0 ≤ asInt64 blob.offs)
    (hfull : (slice fd (asInt64 blob.offs).toNat blob.size).length = blob.size) {call : ℕ × Pread}
    (hcount : 0 < call.1) (hlawful : call.2.Lawful fd) (hcall : call.2.Full fd) :
    YieldsPiece readCall (left fd) (Inside blob) stream call := by
  have hpos := h.nonneg
  have hle := h.le_size
  have hstart' : stream.start = asInt64 blob.offs := by
    unfold start
    rw [h.blob_eq]
  rw [← hstart'] at hstart hfull
  obtain ⟨bs, hok, hlen⟩ := read_eq_of_full h hsize hfd hstart hfull call.1 hcall
  obtain ⟨-, hnonneg, hbs, hend, hnext⟩ := (read_spec h hsize call.1 hlawful).ok bs hok
  rw [h.blob_eq] at hend
  have hread : stream.read call.1 call.2 = ({ stream with pos := stream.pos + bs.length }, .ok bs) :=
    Prod.ext hnext hok
  refine ⟨bs, { stream with pos := stream.pos + bs.length }, ?_, ?_, ?_, ?_⟩
  · unfold readCall
    rw [hread]
  · exact ⟨h.blob_eq, by simp only; omega, hend⟩
  · unfold left
    have hrest : ((stream.blob.size : ℤ) - stream.pos).toNat =
        bs.length + ((stream.blob.size : ℤ) - (stream.pos + bs.length)).toNat := by
      rw [h.blob_eq]
      omega
    have hoff : (stream.start + (stream.pos + bs.length)).toNat =
        (stream.start + stream.pos).toNat + bs.length := by
      rw [← add_assoc, Int.toNat_add_nat hnonneg]
    rw [hrest, slice_add, ← hbs]
    show _ = bs ++ slice fd (stream.start + (stream.pos + bs.length)).toNat _
    rw [hoff]
  · intro hnil
    rw [hnil, List.length_nil] at hlen
    have hzero : (stream.blob.size - stream.pos).toNat = 0 := by
      rw [h.blob_eq]
      omega
    unfold left
    rw [hzero, slice_zero]

/-- The offset of a `pread` that succeeds is that of the blob. -/
theorem eq_slice_of_pread {stored : Bytes} (h : pread fd blob.size blob.offs = some stored) :
    0 ≤ asInt64 blob.offs ∧ slice fd (asInt64 blob.offs).toNat blob.size = stored := by
  unfold pread at h
  split_ifs at h with hoffs
  have hstart : asInt64 blob.offs = ((blob.offs % 2 ^ 64 : ℕ) : ℤ) := by
    unfold asInt64
    rw [← Int.emod_bmod, Int.bmod_eq_of_le] <;> omega
  rw [hstart, Int.toNat_natCast]
  exact ⟨Int.natCast_nonneg _, Option.some.inj h⟩

/-- **Reading the stream to its end** from position 0, with full reads, yields the stored bytes. -/
theorem readUntilEnd_readCall (h : Inside blob stream) (hpos : stream.pos = 0)
    (hsize : blob.size < 2 ^ 63) (hfd : fd.length < 2 ^ 63) {stored : Bytes}
    (hread : pread fd blob.size blob.offs = some stored) (hfull : stored.length = blob.size)
    {calls : List (ℕ × Pread)} (hcalls : ∀ c ∈ calls, 0 < c.1 ∧ c.2.Lawful fd ∧ c.2.Full fd) :
    (∀ bs, readUntilEnd readCall stream calls = some bs → bs = stored) ∧
      (blob.size < calls.length → readUntilEnd readCall stream calls = some stored) := by
  obtain ⟨hstart, hslice⟩ := eq_slice_of_pread hread
  have hleft : left fd stream = stored := by
    unfold left start
    rw [hpos, h.blob_eq, add_zero, sub_zero, Int.toNat_natCast, hslice]
  have hpiece : ∀ s c, Inside blob s → 0 < c.1 ∧ c.2.Lawful fd ∧ c.2.Full fd →
      YieldsPiece readCall (left fd) (Inside blob) s c := by
    rintro s c hs ⟨hcount, hlawful, hreads⟩
    exact yieldsPiece_readCall hs hsize hfd hstart (hslice ▸ hfull) hcount hlawful hreads
  have hend := readUntilEnd_eq hpiece h hcalls
  rwa [hleft, hfull] at hend

/-- What `load_contents` of an uncompressed blob returns, if its `pread` is not cut short. -/
theorem pread_of_loadBlob {env : Env} {inflate : Bytes → ℕ → Option Bytes} {heap : Heap}
    {contents : Bytes} (hflags : isCompressedZlib blob.flags = false)
    (hfull : ∀ bs, pread fd blob.size blob.offs = some bs → bs.length = blob.size)
    (hload : loadBlob env inflate heap fd blob = .ok (some contents)) :
    pread fd blob.size blob.offs = some contents := by
  unfold loadBlob at hload
  by_cases hsize : 2 ^ 63 ≤ blob.size
  · rw [if_pos hsize] at hload
    cases hload
  rw [if_neg hsize] at hload
  cases hp : pread fd blob.size blob.offs with
  | none =>
      rw [hp] at hload
      cases hload
  | some bs =>
      have hbuf : overlay (heap blob.size).toList bs = bs :=
        overlay_full (by rw [List.Vector.toList_length, hfull bs hp])
      rw [hp] at hload
      simp only [hbuf, hflags, Bool.false_eq_true, if_false] at hload
      split_ifs at hload with hsum
      cases hload
      rfl

/-- **The stream of a blob stays inside the blob**, after every sequence of reads and seeks: the
position is between 0 and the size; a seek succeeds exactly if its target is, and goes there; a read
yields bytes of the blob from the position on and moves behind them; a call that fails changes nothing.
And from position 0, full reads up to the end yield what a successful `load_contents` does. -/
theorem streams_stay_inside (hsize : blob.size < 2 ^ 63) {ops : List Op}
    (hops : ∀ op ∈ ops, op.Possible fd) :
    Inside blob (after blob ops) ∧
      (∀ offset type, -2 ^ 63 ≤ offset → offset < 2 ^ 63 → SeekOk (after blob ops) offset type) ∧
      (∀ count pread, pread.Lawful fd → ReadOk fd (after blob ops) count pread) ∧
      ((after blob ops).pos = 0 → isCompressedZlib blob.flags = false → fd.length < 2 ^ 63 →
        (∀ bs, pread fd blob.size blob.offs = some bs → bs.length = blob.size) →
        ∀ env inflate heap contents, loadBlob env inflate heap fd blob = .ok (some contents) →
        ∀ calls : List (ℕ × Pread), (∀ c ∈ calls, 0 < c.1 ∧ c.2.Lawful fd ∧ c.2.Full fd) →
          (∀ bs, readUntilEnd readCall (after blob ops) calls = some bs → bs = contents) ∧
            (blob.size < calls.length →
              readUntilEnd readCall (after blob ops) calls = some contents)) := by
  have h := inside_after hsize hops
  refine ⟨h, fun offset type h₁ h₂ => seek_spec h hsize h₁ h₂ type,
    fun count pread hpread => read_spec h hsize count hpread, ?_⟩
  intro hpos hflags hfd hfull env inflate heap contents hload calls hcalls
  have hread := pread_of_loadBlob hflags hfull hload
  exact readUntilEnd_readCall h hpos hsize hfd hread (hfull _ hread) hcalls

/-- The `pread` of a file that is never cut short. -/
def preadOf (fd : Bytes) : Pread := fun count offset =>
  if 0 ≤ offset then .ok (slice fd offset.toNat count) else .error "Invalid argument"

/-- The `pread` of a file gives bytes of the file. -/
theorem preadOf_lawful (fd : Bytes) : (preadOf fd).Lawful fd := by
  intro count offset bs h
  unfold preadOf at h
  split_ifs at h with hoffset
  cases h
  exact ⟨hoffset, List.prefix_refl _⟩

/-- The `pread` of a file gives as many bytes as there are. -/
theorem preadOf_full (fd : Bytes) : (preadOf fd).Full fd := by
  intro count offset hoffset _
  unfold preadOf
  rw [if_pos hoffset]

/-- The byte 1 as a blob between other bytes. -/
def oneBlob : EosShardBlob := ⟨oneFile.contentType, 0, oneDigest, 2, 1, 1⟩

/-- A read, two seeks that fail (the first sum leaves the range of `goffset`), and one back. -/
def seekingOps : List Op :=
  [.read 5 (preadOf [7, 7, 1, 7]), .seek (2 ^ 63 - 1) .cur, .seek (-2) .fromEnd, .seek (-1) .cur]

/-- A stream on one byte: a read, two seeks that fail, and one back to the start. -/
theorem streams_stay_inside_oneBlob :
    Inside oneBlob (after oneBlob seekingOps) ∧ (after oneBlob seekingOps).pos = 0 ∧
      readUntilEnd readCall (after oneBlob seekingOps)
        (List.replicate 2 (3, preadOf [7, 7, 1, 7])) = some [1] := by
  have hops : ∀ op ∈ seekingOps, op.Possible [7, 7, 1, 7] := by
    intro op hop
    simp only [seekingOps, List.mem_cons, List.not_mem_nil, or_false] at hop
    rcases hop with rfl | rfl | rfl | rfl
    · exact preadOf_lawful _
    · exact ⟨by norm_num, by norm_num⟩
    · exact ⟨by norm_num, by norm_num⟩
    · exact ⟨by norm_num, by norm_num⟩
  have hsize : oneBlob.size < 2 ^ 63 := by decide
  obtain ⟨hinside, -, -, hread⟩ := streams_stay_inside hsize hops
  have hpos : (after oneBlob seekingOps).pos = 0 := by decide +kernel
  have hload : loadBlob smallEnv (fun _ _ => none) (fun n => List.Vector.replicate n 0)
      [7, 7, 1, 7] oneBlob = .ok (some [1]) := by decide +kernel
  refine ⟨hinside, hpos, (hread hpos (by decide) (by decide) (by decide) _ _ _ _ hload _ ?_).2
    (by decide)⟩
  intro c hc
  rw [List.eq_of_mem_replicate hc]
  exact ⟨by norm_num, preadOf_lawful _, preadOf_full _⟩

end EosShardBlobStream

end EosShard
