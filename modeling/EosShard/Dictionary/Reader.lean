import EosShard.Dictionary.BloomFilter
import EosShard.Dictionary.Format
import EosShard.Found.Loop
import EosShard.Found.Search

/-!
# The dictionary reader

`eos-shard-dictionary.c` over the bytes of the file behind the descriptor. `heap` is the memory the
code reads before it has written it. `stack` is the room that the arrays of variable length have on the
stack, in bytes; a statement that names none is about a stack without a limit. The loops over the file
need not end; they are functions of a number of iterations, and answer `none` where it does not suffice.

* `newForFd` opens the dictionary at an offset of the file.
* `dictionaryFindBlock` bisects the block table by the first keys of the blocks.
* `scanChunk` is the inner loop of the scan of a block, over one chunk, and `scanStep` one iteration of
  the outer loop, which reads the chunks.
-/

namespace EosShard.Dictionary

open EosShard.Found

/-- An opened dictionary. Source: `eos-shard-dictionary.c`, `struct _EosShardDictionary` (without the
reference count). -/
structure EosShardDictionary where
  /-- The contents of the file behind the descriptor. -/
  fd : Bytes
  /-- Where the dictionary starts. -/
  offset : ℕ
  header : DictionaryHeader
  /-- The filter, `none` for `NULL`. -/
  bloomFilter : Option BloomFilter

/-- The error for a dictionary that cannot be read. -/
def dictionaryCorrupt : Failure := .gerror ⟨.dictionaryCorrupt, "The dictionary is corrupt."⟩

/-- Read the header; only its magic is checked, since no length is smaller than `-1`.
Source: `eos-shard-dictionary.c`, `dictionary_open`. -/
def dictionaryOpen (heap : Heap) (fd : Bytes) (offset : ℕ) : Option DictionaryHeader :=
  let bs := (pread fd DictionaryHeader.sizeof offset).getD []
  let header := DictionaryHeader.ofBytes (overlay (heap DictionaryHeader.sizeof).toList bs)
  if header.magic = magic then some header else none

/-- Source: `eos-shard-dictionary.c`, `eos_shard_dictionary_new_for_fd`. -/
def newForFd (heap : Heap) (fd : Bytes) (offset : ℕ) : Result EosShardDictionary :=
  match dictionaryOpen heap fd offset with
  | none => .error dictionaryCorrupt
  | some header =>
      if header.bloomFilterStart ≠ 0 then
        (bloomFilterInitForFd fd (offset + header.bloomFilterStart)).map fun bloomFilter =>
          ⟨fd, offset, header, some bloomFilter⟩
      else .ok ⟨fd, offset, header, none⟩

/-! ## The block of a key -/

/-- `blocks[i]`. -/
def blockAt (blocks : Bytes) (i : ℕ) : DictionaryBlockTableEntry :=
  .ofBytes (slice blocks (i * DictionaryBlockTableEntry.sizeof) DictionaryBlockTableEntry.sizeof)

/-- `int key_size = CSTRING_SIZE (key)`. -/
def keySize (key : CString) : ℤ := asInt32 key.size

/-- One probe of the bisection: whether the block starts with a greater key. `key_size` bytes are read
and compared. An array of a negative length ends the process, and so does one that has no room behind the
table of the blocks; one of length 0 does not, and what is compared is then equal. -/
def probe (stack : ℕ∞) (dictionary : EosShardDictionary) (blocks : Bytes) (key : CString) (mid : ℕ) :
    Except Failure Bool :=
  if keySize key < 0 then .error .abort
  else
    let n := (keySize key).toNat
    if stack < (blocks.length + n : ℕ) then .error .abort
    else
      match pread dictionary.fd n (dictionary.offset + (blockAt blocks mid).offset) with
      | none => .error dictionaryCorrupt
      | some bs => .ok (strncmp n (overlay (List.replicate n 0) bs) key.toBytes = .gt)

/-- Find the block a key is in, if it is there. The table structure has 12 bytes, of which the number
of blocks is the first two. The table of the blocks is an array on the stack.
Source: `eos-shard-dictionary.c`, `dictionary_find_block`. -/
def dictionaryFindBlock (heap : Heap) (dictionary : EosShardDictionary) (key : CString)
    (stack : ℕ∞ := ⊤) : Result (Option DictionaryBlockTableEntry) :=
  let start := dictionary.offset + dictionary.header.blockTableStart
  match pread dictionary.fd 12 start with
  | none => .error dictionaryCorrupt
  | some tbl =>
      let nBlocks := leNat (slice (overlay (heap 12).toList tbl) 0 2)
      let blocksSize := nBlocks * DictionaryBlockTableEntry.sizeof
      if stack < blocksSize then .error .abort
      else
        match pread dictionary.fd blocksSize (start + 2) with
        | none => .error dictionaryCorrupt
        | some bs =>
            let blocks := overlay (heap blocksSize).toList bs
            match bisect (probe stack dictionary blocks key) 0 ((nBlocks : ℤ) - 1) with
            | .error e => .error e
            | .ok (lo, hi) =>
                if lo ≤ 0 ∨ hi > (nBlocks : ℤ) - 1 then .ok none
                else .ok (some (blockAt blocks (lo - 1).toNat))

/-! ## The scan of a block -/

/-- `chunk_size`: one byte of the chunk is left for a NUL. -/
abbrev chunkSize : ℕ := maxKeySize - 1

/-- The inner loop over a chunk: `str` is the position of the next key, and `offs` moves along with it.
The answer is the position of the value of a matching key, or the position of the key at which the
chunk ends, which is where the next chunk starts. -/
def scanChunk (chunk : Bytes) (key : CString) (str : ℕ) : ℕ ⊕ ℕ :=
  let chunkKey := cstr (chunk.drop str)
  let value := str + chunkKey.size
  if chunkSize ≤ value then .inl str
  else if chunkKey = key then .inr value
  else
    let next := value + (cstr (chunk.drop value)).size
    if chunkSize ≤ next then .inl str else scanChunk chunk key next
termination_by chunkSize - str
decreasing_by
  have := (cstr (chunk.drop str)).size_pos
  omega

/-- One iteration of the outer loop: read a chunk and scan it. -/
def scanStep (dictionary : EosShardDictionary) (key : CString) (stop offs : ℕ) : ℕ ⊕ Result ℕ :=
  if offs < stop then
    match pread dictionary.fd chunkSize (dictionary.offset + offs) with
    | none => .inr (.error dictionaryCorrupt)
    | some bs =>
        match scanChunk (overlay (List.replicate maxKeySize 0) bs) key 0 with
        | .inl str => .inl ((offs + str) % 2 ^ 64)
        | .inr str => .inr (.ok ((offs + str) % 2 ^ 64))
  else .inr (.ok 0)

/-- The linear scan of a block for a key; the offset of its value, or 0.
Source: `eos-shard-dictionary.c`, `dictionary_lookup_key_in_block`. -/
def dictionaryLookupKeyInBlock (fuel : ℕ) (dictionary : EosShardDictionary)
    (block : DictionaryBlockTableEntry) (key : CString) : Option (Result ℕ) :=
  loop (scanStep dictionary key ((block.offset + block.length) % 2 ^ 64)) fuel block.offset

/-- The part of a lookup behind the filter. -/
def dictionaryLookupKeyInBlocks (fuel : ℕ) (heap : Heap) (dictionary : EosShardDictionary)
    (key : CString) (stack : ℕ∞ := ⊤) : Option (Result ℕ) :=
  match dictionaryFindBlock heap dictionary key stack with
  | .error e => some (.error e)
  | .ok none => some (.ok 0)
  | .ok (some block) => dictionaryLookupKeyInBlock fuel dictionary block key

/-- Source: `eos-shard-dictionary.c`, `dictionary_lookup_key`. -/
def dictionaryLookupKey (fuel : ℕ) (heap : Heap) (dictionary : EosShardDictionary)
    (key : CString) (stack : ℕ∞ := ⊤) : Option (Result ℕ) :=
  match dictionary.bloomFilter with
  | none => dictionaryLookupKeyInBlocks fuel heap dictionary key stack
  | some bloomFilter =>
      match bloomFilterTest bloomFilter key stack with
      | .error e => some (.error e)
      | .ok false => some (.ok 0)
      | .ok true => dictionaryLookupKeyInBlocks fuel heap dictionary key stack

/-! ## Values -/

/-- One iteration of the loop that reads a string: `string` is what has been collected. The offset is
that of the first iteration, every time. A failed read counts as a length above all others.
Source: `eos-shard-dictionary.c`, `read_cstring`. -/
def readCstringStep (fd : Bytes) (offset : ℕ) (string : Bytes) : Bytes ⊕ CString :=
  match pread fd chunkSize offset with
  | none => .inr (cstr string)
  | some bs =>
      if (cstr (overlay (List.replicate maxKeySize 0) bs)).length < bs.length then
        .inr (cstr (string ++ bs))
      else .inl (string ++ bs)

/-- The string at an offset, as its caller sees it.
Source: `eos-shard-dictionary.c`, `read_cstring`. -/
def readCstring (fuel : ℕ) (fd : Bytes) (offset : ℕ) : Option CString :=
  loop (readCstringStep fd offset) fuel []

/-- Source: `eos-shard-dictionary.c`, `eos_shard_dictionary_lookup_key`. -/
def lookupKey (fuel : ℕ) (heap : Heap) (dictionary : EosShardDictionary) (key : CString)
    (stack : ℕ∞ := ⊤) : Option (Result (Option CString)) :=
  (dictionaryLookupKey fuel heap dictionary key stack).bind fun
    | .error e => some (.error e)
    | .ok valueOffset =>
        if valueOffset = 0 then some (.ok none)
        else (readCstring fuel dictionary.fd (dictionary.offset + valueOffset)).map fun value =>
          .ok (some value)

end EosShard.Dictionary
