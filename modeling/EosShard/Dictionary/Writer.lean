import EosShard.Dictionary.BloomFilter
import EosShard.Dictionary.Format

/-!
# The dictionary writer

`eos-shard-dictionary-writer.c`. An operation answers with the new writer and the writes to the stream,
in order; `tell` is the position of the stream. A call that sets its error leaves the writer as it
was. The size of a block is the square root of the declared number of entries, rounded up.
-/

namespace EosShard.Dictionary

open EosShard.Found

/-- `ceil (sqrt (n))`. -/
def ceilSqrt (n : ℕ) : ℕ := if n.sqrt * n.sqrt = n then n.sqrt else n.sqrt + 1

/-- `ceil (n / m)`. -/
def ceilDiv (n m : ℕ) : ℕ := (n + (m - 1)) / m

/-- Source: `eos-shard-dictionary-writer.c`, `struct _EosShardDictionaryWriter`. -/
structure DictionaryWriter where
  /-- The position of the stream. -/
  tell : ℕ
  nEntriesTotal : ℕ
  blockLength : ℕ
  nBlocks : ℕ
  nEntriesAdded : ℕ
  lastKey : Option CString
  offsets : List ℕ
  bloomFilter : BloomFilter
  deriving DecidableEq

/-- A writer for the declared number of entries. Without entries there is no block: `ceil` of the NaN
`0.0 / 0` is stored as 0. The parameters of the filter are those of `bloom_filter_init_for_params`.
Source: `eos-shard-dictionary-writer.c`, `eos_shard_dictionary_writer_new_for_stream`. -/
def newForStream (nEntries : ℕ) (params : BloomFilterHeader) : DictionaryWriter where
  tell := 0
  nEntriesTotal := nEntries % 2 ^ 32
  blockLength := ceilSqrt nEntries
  nBlocks := ceilDiv nEntries (ceilSqrt nEntries) % 2 ^ 16
  nEntriesAdded := 0
  lastKey := none
  offsets := []
  bloomFilter := bloomFilterInitForParams params

/-- Leave room for the header.
Source: `eos-shard-dictionary-writer.c`, `eos_shard_dictionary_writer_begin`. -/
def beginEntries (self : DictionaryWriter) : DictionaryWriter :=
  { self with tell := DictionaryHeader.sizeof }

/-- A C string as the text of a message. -/
def text (s : CString) : String := String.ofList (s.chars.map fun c => Char.ofNat c.toNat)

/-- The error for a key that is smaller than the last one. -/
def outOfOrder (key lastKey : CString) : Failure :=
  .gerror ⟨.dictionaryWriterEntriesOutOfOrder,
    "Added key " ++ text key ++ " is less than last key " ++ text lastKey⟩

/-- The error for a wrong number of entries, printed as `int`s. -/
def wrongNumberEntries (added total : ℕ) : Failure :=
  .gerror ⟨.dictionaryWriterWrongNumberEntries,
    "Incorrect number of entries: got " ++ toString (asInt32 added) ++ ", expected " ++
      toString (asInt32 total)⟩

/-- Add an entry behind the last one; the start of every block is noted. A block length of 0 is
divided by, which ends the process.
Source: `eos-shard-dictionary-writer.c`, `eos_shard_dictionary_writer_add_entry`. -/
def addEntry (self : DictionaryWriter) (key value : CString) :
    Result (DictionaryWriter × List Write) :=
  match self.lastKey.filter fun lastKey => key < lastKey with
  | some lastKey => .error (outOfOrder key lastKey)
  | none =>
      if self.blockLength = 0 then .error .abort
      else
        let offsets := if self.nEntriesAdded % self.blockLength = 0 then self.offsets ++ [self.tell]
          else self.offsets
        (bloomFilterAdd self.bloomFilter key).map fun bloomFilter =>
          ({ self with
              offsets := offsets, bloomFilter := bloomFilter,
              tell := self.tell + key.size + value.size,
              nEntriesAdded := (self.nEntriesAdded + 1) % 2 ^ 32, lastKey := some key },
            seqWrites self.tell [key.toBytes, value.toBytes])

/-- The block table: every offset with the distance to the next. -/
def blockTable : List ℕ → List DictionaryBlockTableEntry
  | o :: o' :: offsets => ⟨o, o' - o⟩ :: blockTable (o' :: offsets)
  | _ => []

/-- Write the block table, the filter and the header.
Source: `eos-shard-dictionary-writer.c`, `eos_shard_dictionary_writer_finish`. -/
def finish (self : DictionaryWriter) : Result (DictionaryWriter × List Write) :=
  if self.nEntriesAdded ≠ self.nEntriesTotal then
    .error (wrongNumberEntries self.nEntriesAdded self.nEntriesTotal)
  else if self.offsets.length ≠ self.nBlocks then .error .abort
  else
    let offsets := self.offsets ++ [self.tell]
    let table := le 2 self.nBlocks :: (blockTable offsets).map DictionaryBlockTableEntry.toBytes
    let bloomFilterStart := self.tell + table.flatten.length
    let header : DictionaryHeader := ⟨magic, self.tell, bloomFilterStart⟩
    .ok ({ self with offsets := offsets, tell := DictionaryHeader.sizeof },
      seqWrites self.tell (table ++ bloomFilterWriteToStream self.bloomFilter) ++
        [⟨0, header.toBytes⟩])

/-! ## Runs -/

/-- One call of `add_entry` in a program that goes on after an error. -/
def step (self : DictionaryWriter) (e : Entry) : Result (DictionaryWriter × List Write) :=
  match addEntry self e.key e.value with
  | .error (.gerror _) => .ok (self, [])
  | result => result

/-- A sequence of calls. -/
def addEntries : DictionaryWriter → List Entry → Result (DictionaryWriter × List Write)
  | self, [] => .ok (self, [])
  | self, e :: es => do
      let (self, ws) ← step self e
      let (self, ws') ← addEntries self es
      return (self, ws ++ ws')

/-- A whole run: all writes to the stream. -/
def writeDictionary (nEntries : ℕ) (params : BloomFilterHeader) (es : List Entry) :
    Result (List Write) := do
  let (self, ws) ← addEntries (beginEntries (newForStream nEntries params)) es
  let (_, ws') ← finish self
  return ws ++ ws'

end EosShard.Dictionary
