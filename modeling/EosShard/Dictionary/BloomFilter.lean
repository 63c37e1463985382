import EosShard.Common
import EosShard.Found.BitArray

/-!
# The bloom filter

`eos-shard-bloom-filter.c`. The hash arithmetic wraps at 32 bits, and the characters of a key are
signed when they enter it. The parameters of a filter are an argument: the source computes them in
floating point. `stack` is the room that an array of variable length has on the stack, in bytes; a
statement that names none is about a stack without a limit.

* `bloomFilterAdd_spec`: an `add` succeeds and sets exactly the bits of the key's hashes.
* `bloomFilterTest_eq`: a `test` that has room on the stack succeeds and tells whether all these bits are
  set, so no key that was added is missed.
* `bloomFilterInitForFd_of_holds`: a filter that was written is loaded again.
-/

namespace EosShard.Dictionary

open EosShard.Found

/-! ## The model -/

/-- Source: `eos-shard-bloom-filter.h`, `struct bloom_filter_header`. -/
structure BloomFilterHeader where
  nBits : ℕ
  nBuckets : ℕ
  nHashes : ℕ
  deriving DecidableEq, Repr

/-- `sizeof (struct bloom_filter_header)`. -/
abbrev BloomFilterHeader.sizeof : ℕ := 12

/-- The header in memory. -/
def BloomFilterHeader.toBytes (h : BloomFilterHeader) : Bytes :=
  le 4 h.nBits ++ (le 4 h.nBuckets ++ le 4 h.nHashes)

/-- The header in a 12-byte buffer. -/
def BloomFilterHeader.ofBytes (b : Bytes) : BloomFilterHeader where
  nBits := leNat (slice b 0 4)
  nBuckets := leNat (slice b 4 4)
  nHashes := leNat (slice b 8 4)

/-- Source: `eos-shard-bloom-filter.h`, `struct bloom_filter`. -/
structure BloomFilter where
  header : BloomFilterHeader
  buckets : List ℕ
  deriving DecidableEq, Repr

/-- The error for a filter that cannot be read. -/
def bloomFilterCorrupt : Failure := .gerror ⟨.bloomFilterCorrupt, "The bloom filter is corrupt."⟩

/-- A filter with zeroed buckets.
Source: `eos-shard-bloom-filter.c`, `bloom_filter_init_for_params`. -/
def bloomFilterInitForParams (header : BloomFilterHeader) : BloomFilter :=
  ⟨header, List.replicate header.nBuckets 0⟩

/-- Load a filter into a zeroed structure.
Source: `eos-shard-bloom-filter.c`, `bloom_filter_init_for_fd`. -/
def bloomFilterInitForFd (fd : Bytes) (offset : ℕ) : Result BloomFilter :=
  match pread fd BloomFilterHeader.sizeof offset with
  | none => .error bloomFilterCorrupt
  | some bs =>
      let header := BloomFilterHeader.ofBytes (overlay (List.replicate BloomFilterHeader.sizeof 0) bs)
      let bucketsSize := header.nBuckets * 4
      match pread fd bucketsSize (offset + BloomFilterHeader.sizeof) with
      | none => .error bloomFilterCorrupt
      | some bs => .ok ⟨header, wordsOf header.nBuckets (overlay (List.replicate bucketsSize 0) bs)⟩

/-- What goes into the stream.
Source: `eos-shard-bloom-filter.c`, `bloom_filter_write_to_stream`. -/
def bloomFilterWriteToStream (self : BloomFilter) : List Bytes :=
  [self.header.toBytes, wordBytes self.buckets]

/-- `FNV_32_PRIME`. -/
def fnv32Prime : UInt32 := 16777619

/-- `FNV_32_OFFS_BASIS`. -/
def fnv32OffsBasis : UInt32 := 2166136261

/-- Source: `eos-shard-bloom-filter.c`, `fnv_mix`. -/
def fnvMix (a : UInt32) : UInt32 :=
  let a := a + a <<< 13
  let a := a ^^^ a >>> 7
  let a := a + a <<< 3
  let a := a ^^^ a >>> 17
  a + a <<< 5

/-- A `char` as an operand: sign-extended. -/
def charToUInt32 (c : UInt8) : UInt32 := c.toInt8.toInt32.toUInt32

/-- Source: `eos-shard-bloom-filter.c`, `fnv_1a`. -/
def fnv1a (v : CString) : UInt32 :=
  fnvMix (v.chars.foldl (fun a c => (a ^^^ charToUInt32 c) * fnv32Prime) fnv32OffsBasis)

/-- Source: `eos-shard-bloom-filter.c`, `fnv_1a_b`. -/
def fnv1aB (a : UInt32) : UInt32 := fnvMix (a * fnv32Prime)

/-- The loop of `compute_hashes`, for `n` more hashes. -/
def hashesFrom (b nBits : ℕ) : ℕ → ℕ → List ℕ
  | 0, _ => []
  | n + 1, x => x :: hashesFrom b nBits n ((x + b) % 2 ^ 32 % nBits)

/-- Source: `eos-shard-bloom-filter.c`, `compute_hashes`. -/
def computeHashes (key : CString) (nHashes nBits : ℕ) : List ℕ :=
  let a := fnv1a key
  let b := fnv1aB a
  hashesFrom b.toNat nBits nHashes (a.toNat % nBits)

/-- The loop of `bloom_filter_add`, with its assertion. -/
def setBits (nBuckets : ℕ) : List ℕ → List ℕ → Result (List ℕ)
  | [], buckets => .ok buckets
  | h :: hashes, buckets =>
      if h / 32 < nBuckets then setBits nBuckets hashes (setBit buckets h) else .error .abort

/-- Source: `eos-shard-bloom-filter.c`, `bloom_filter_add`. -/
def bloomFilterAdd (self : BloomFilter) (key : CString) : Result BloomFilter :=
  if self.header.nBits = 0 then .ok self
  else
    (setBits self.header.nBuckets (computeHashes key self.header.nHashes self.header.nBits)
      self.buckets).map fun buckets => { self with buckets := buckets }

/-- The loop of `bloom_filter_test`, with its assertion. -/
def testBits (nBuckets : ℕ) (buckets : List ℕ) : List ℕ → Result Bool
  | [] => .ok true
  | h :: hashes =>
      if h / 32 < nBuckets then
        if buckets.getD (h / 32) 0 &&& 1 <<< (h % 32) = 0 then .ok false
        else testBits nBuckets buckets hashes
      else .error .abort

/-- The array of the hashes has a 32-bit number for each of them; where it does not fit on the stack the
process ends. Source: `eos-shard-bloom-filter.c`, `bloom_filter_test`. -/
def bloomFilterTest (self : BloomFilter) (key : CString) (stack : ℕ∞ := ⊤) : Result Bool :=
  if self.header.nBits = 0 then .ok false
  else if stack < (self.header.nHashes * 4 : ℕ) then .error .abort
  else testBits self.header.nBuckets self.buckets
    (computeHashes key self.header.nHashes self.header.nBits)

/-! ## Well-formed filters -/

/-- A filter as `bloom_filter_init_for_params` sizes it: a bucket for every 32 bits. -/
structure BloomFilterHeader.Ok (h : BloomFilterHeader) : Prop where
  nBits_mod : h.nBits % 32 = 0
  nBuckets_eq : h.nBuckets = h.nBits / 32
  nBits_lt : h.nBits < 2 ^ 32
  nHashes_lt : h.nHashes < 2 ^ 32

/-- A well-formed filter. -/
structure BloomFilter.Ok (filter : BloomFilter) : Prop where
  header : filter.header.Ok
  length : filter.buckets.length = filter.header.nBuckets
  lt : ∀ w ∈ filter.buckets, w < 2 ^ 32

/-- A test has room on the stack. -/
def BloomFilterHeader.OnStack (stack : ℕ∞) (h : BloomFilterHeader) : Prop :=
  h.nBits = 0 ∨ (h.nHashes * 4 : ℕ) ≤ stack

/-- Whether the array of the hashes fits on the stack can be decided. -/
instance (stack : ℕ∞) (h : BloomFilterHeader) : Decidable (h.OnStack stack) :=
  inferInstanceAs (Decidable (_ ∨ _))

/-- Without a limit of the stack the array always fits. -/
theorem BloomFilterHeader.onStack_top (h : BloomFilterHeader) : h.OnStack ⊤ := Or.inr le_top

/-- The filter has all bits of the key. -/
def BloomFilter.Contains (self : BloomFilter) (key : CString) : Prop :=
  ∀ h ∈ computeHashes key self.header.nHashes self.header.nBits, bit self.buckets h = true

/-- Whether a filter contains a key can be decided. -/
instance (self : BloomFilter) (key : CString) : Decidable (self.Contains key) :=
  inferInstanceAs (Decidable (∀ h ∈ _, _))

/-- A new filter is in order. -/
theorem bloomFilterInitForParams_ok {header : BloomFilterHeader} (h : header.Ok) :
    (bloomFilterInitForParams header).Ok where
  header := h
  length := List.length_replicate
  lt w hw := by
    rw [List.eq_of_mem_replicate hw]
    norm_num

/-- The hashes are bits of the filter. -/
theorem hashesFrom_lt {b nBits : ℕ} (hpos : 0 < nBits) {n x : ℕ} (hx : x < nBits) :
    ∀ h ∈ hashesFrom b nBits n x, h < nBits := by
  induction n generalizing x with
  | zero => exact List.forall_mem_nil _
  | succ n ih => exact List.forall_mem_cons.mpr ⟨hx, ih (Nat.mod_lt _ hpos)⟩

/-- Every hash has a bucket, so the assertions hold. -/
theorem BloomFilterHeader.Ok.bucket_lt {header : BloomFilterHeader} (h : header.Ok)
    (hpos : 0 < header.nBits) {key : CString} {x : ℕ}
    (hx : x ∈ computeHashes key header.nHashes header.nBits) : x / 32 < header.nBuckets := by
  have hlt := hashesFrom_lt hpos (Nat.mod_lt _ hpos) x hx
  have := h.nBits_mod
  rw [h.nBuckets_eq]
  omega

/-! ## Adding and testing -/

/-- The bits of the hashes are set, and no others. -/
theorem setBits_spec {nBuckets : ℕ} {hashes buckets : List ℕ}
    (hlt : ∀ h ∈ hashes, h / 32 < nBuckets) (hlen : buckets.length = nBuckets)
    (hw : ∀ w ∈ buckets, w < 2 ^ 32) :
    ∃ buckets', setBits nBuckets hashes buckets = .ok buckets' ∧ buckets'.length = nBuckets ∧
      (∀ w ∈ buckets', w < 2 ^ 32) ∧
      ∀ j, bit buckets' j = (bit buckets j || decide (j ∈ hashes)) := by
  induction hashes generalizing buckets with
  | nil => exact ⟨_, rfl, hlen, hw, fun j => by simp⟩
  | cons h hashes ih =>
      have hh := hlt h List.mem_cons_self
      obtain ⟨buckets', hset, hlen', hw', hbit⟩ := ih
        (fun x hx => hlt x (List.mem_cons_of_mem _ hx)) ((length_setBit _ _).trans hlen)
        (lt_of_mem_setBit hw h)
      refine ⟨buckets', by rw [setBits, if_pos hh, hset], hlen', hw', fun j => ?_⟩
      rw [hbit, bit_setBit (hlen ▸ hh), Bool.or_assoc]
      congr 1
      simp only [List.mem_cons, Bool.decide_or]

/-- **An `add` sets exactly the bits of the key.** -/
theorem bloomFilterAdd_spec {self : BloomFilter} (h : self.Ok) (key : CString) :
    ∃ self', bloomFilterAdd self key = .ok self' ∧ self'.Ok ∧ self'.header = self.header ∧
      (0 < self.header.nBits → ∀ j, bit self'.buckets j = (bit self.buckets j ||
        decide (j ∈ computeHashes key self.header.nHashes self.header.nBits))) := by
  unfold bloomFilterAdd
  by_cases h0 : self.header.nBits = 0
  · exact ⟨self, if_pos h0, h, rfl, fun hpos => absurd h0 (Nat.pos_iff_ne_zero.mp hpos)⟩
  · have hpos := Nat.pos_of_ne_zero h0
    obtain ⟨buckets', hset, hlen, hw, hbit⟩ := setBits_spec
      (fun x hx => h.header.bucket_lt hpos hx) h.length h.lt
    exact ⟨⟨self.header, buckets'⟩, by rw [if_neg h0, hset]; rfl, ⟨h.header, hlen, hw⟩, rfl,
      fun _ => hbit⟩

/-- The key that was added is contained, and so is what was contained before. -/
theorem contains_of_bloomFilterAdd {self self' : BloomFilter} (h : self.Ok)
    (hpos : 0 < self.header.nBits) {key : CString} (hadd : bloomFilterAdd self key = .ok self') :
    self'.Contains key ∧ ∀ key', self.Contains key' → self'.Contains key' := by
  obtain ⟨self'', hadd', -, hheader, hbit⟩ := bloomFilterAdd_spec h key
  rw [hadd] at hadd'
  cases hadd'
  constructor
  · intro x hx
    rw [hheader] at hx
    rw [hbit hpos, decide_eq_true hx, Bool.or_true]
  · intro key' hkey x hx
    rw [hheader] at hx
    rw [hbit hpos, hkey x hx, Bool.true_or]

/-- The test is whether the bits of all hashes are set. -/
theorem testBits_eq {nBuckets : ℕ} {buckets hashes : List ℕ}
    (hlt : ∀ h ∈ hashes, h / 32 < nBuckets) :
    testBits nBuckets buckets hashes = .ok (decide (∀ h ∈ hashes, bit buckets h = true)) := by
  induction hashes with
  | nil => simp [testBits]
  | cons h hashes ih =>
      have hmask : buckets.getD (h / 32) 0 &&& 1 <<< (h % 32) = 0 ↔ bit buckets h = false := by
        rw [Nat.one_shiftLeft, Nat.and_two_pow, bit]
        cases (buckets.getD (h / 32) 0).testBit (h % 32) <;> simp
      rw [testBits, if_pos (hlt h List.mem_cons_self), ih fun x hx => hlt x (List.mem_cons_of_mem _ hx)]
      by_cases hb : bit buckets h = true
      · rw [if_neg (by rw [hmask, hb]; exact Bool.noConfusion)]
        simp [hb]
      · rw [if_pos (hmask.mpr (Bool.not_eq_true _ ▸ hb))]
        simp [hb]

/-- **A `test` tells whether all bits of the key are set**, if it has room on the stack. -/
theorem bloomFilterTest_eq {self : BloomFilter} (h : self.Ok) {stack : ℕ∞}
    (hstack : self.header.OnStack stack) (key : CString) :
    bloomFilterTest self key stack = .ok (decide (0 < self.header.nBits ∧ self.Contains key)) := by
  unfold bloomFilterTest
  by_cases h0 : self.header.nBits = 0
  · simp [h0]
  · have hpos := Nat.pos_of_ne_zero h0
    rw [if_neg h0, if_neg (not_lt.mpr (hstack.resolve_left h0)),
      testBits_eq fun x hx => h.header.bucket_lt hpos hx]
    congr 1
    simp only [hpos, true_and, BloomFilter.Contains]

/-- Without room on the stack it ends the process. -/
theorem bloomFilterTest_eq_abort {self : BloomFilter} {stack : ℕ∞} (hstack : ¬ self.header.OnStack stack)
    (key : CString) : bloomFilterTest self key stack = .error .abort := by
  obtain ⟨h0, hlt⟩ := not_or.mp hstack
  rw [bloomFilterTest, if_neg h0, if_pos (not_le.mp hlt)]

/-- A filter that can be tested has room on the stack. -/
theorem onStack_of_bloomFilterTest {self : BloomFilter} {stack : ℕ∞} {key : CString} {b : Bool}
    (h : bloomFilterTest self key stack = .ok b) : self.header.OnStack stack := by
  by_contra hno
  rw [bloomFilterTest_eq_abort hno] at h
  cases h

/-! ## Writing and loading -/

/-- A header takes its size. -/
@[simp] theorem BloomFilterHeader.length_toBytes (h : BloomFilterHeader) :
    h.toBytes.length = BloomFilterHeader.sizeof := by
  simp [toBytes]

/-- **A header reads back from its bytes** if it is in order. -/
theorem BloomFilterHeader.ofBytes_toBytes {h : BloomFilterHeader} (hok : h.Ok) :
    BloomFilterHeader.ofBytes h.toBytes = h := by
  have hheld := holds_self h.toBytes
  simp only [toBytes, Holds.append_iff, length_le, Nat.zero_add] at hheld
  obtain ⟨h₁, h₂, h₃⟩ := hheld
  have hlt : h.nBuckets < 2 ^ 32 := by
    have := hok.nBits_lt
    rw [hok.nBuckets_eq]
    omega
  simp only [ofBytes, toBytes, h₁.leNat_slice rfl (hok.nBits_lt.trans_eq (by norm_num)),
    h₂.leNat_slice rfl (hlt.trans_eq (by norm_num)),
    h₃.leNat_slice rfl (hok.nHashes_lt.trans_eq (by norm_num))]

/-- **A filter that lies in a file is loaded** as it was written. -/
theorem bloomFilterInitForFd_of_holds {fd : Bytes} {offset : ℕ} {self : BloomFilter} (h : self.Ok)
    (hheld : Holds fd offset (bloomFilterWriteToStream self).flatten)
    (hlt : offset + BloomFilterHeader.sizeof < 2 ^ 63) :
    bloomFilterInitForFd fd offset = .ok self := by
  simp only [bloomFilterWriteToStream, List.flatten_cons, List.flatten_nil, List.append_nil,
    Holds.append_iff, BloomFilterHeader.length_toBytes] at hheld
  have hhdr : overlay (List.replicate BloomFilterHeader.sizeof 0)
      (slice fd offset BloomFilterHeader.sizeof) = self.header.toBytes := by
    rw [hheld.1.slice_eq (BloomFilterHeader.length_toBytes _).symm]
    exact overlay_full (by simp)
  have hlen : (wordBytes self.buckets).length = self.header.nBuckets * 4 := by
    rw [length_wordBytes, h.length]
  have hbuckets : overlay (List.replicate (self.header.nBuckets * 4) 0)
      (slice fd (offset + BloomFilterHeader.sizeof) (self.header.nBuckets * 4)) =
      wordBytes self.buckets := by
    rw [hheld.2.slice_eq hlen.symm]
    exact overlay_full (by simp [hlen])
  rw [bloomFilterInitForFd, pread_eq (by omega)]
  simp only [hhdr, BloomFilterHeader.ofBytes_toBytes h.header]
  rw [pread_eq hlt]
  simp only [hbuckets]
  rw [← h.length, wordsOf_wordBytes h.lt]

end EosShard.Dictionary
