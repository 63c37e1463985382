import EosShard.Common

/-!
# The dictionary on disk

`eos-shard-dictionary-format.h`: a header, the entries (key and value as C strings, one behind the
other), the block table, and the bloom filter. A block is a run of entries; the table has its offset
from the start of the dictionary and its length.
-/

namespace EosShard.Dictionary

open EosShard.Found

/-- `DICTIONARY_MAGIC`. -/
def magic : Bytes := ascii "DictV1  "

/-- `DICTIONARY_MAX_KEY_SIZE`. Source: `eos-shard-dictionary-format.h`. -/
abbrev maxKeySize : ℕ := 8192

/-- A key with its value. -/
structure Entry where
  key : CString
  value : CString
  deriving DecidableEq

/-- The bytes the entry takes, both NULs included. -/
def Entry.size (e : Entry) : ℕ := e.key.size + e.value.size

/-- The key is a part of the entry. -/
theorem Entry.key_size_le (e : Entry) : e.key.size ≤ e.size := Nat.le_add_right _ _

/-- No entry is empty. -/
theorem Entry.size_pos (e : Entry) : 0 < e.size := Nat.add_pos_left e.key.size_pos _

/-- The entry in the file. -/
def Entry.toBytes (e : Entry) : Bytes := e.key.toBytes ++ e.value.toBytes

/-- An entry takes its size. -/
@[simp] theorem Entry.length_toBytes (e : Entry) : e.toBytes.length = e.size := by
  rw [toBytes, List.length_append, CString.length_toBytes, CString.length_toBytes, size]

/-- Entries one behind the other. -/
def entriesBytes (es : List Entry) : Bytes := es.flatMap Entry.toBytes

/-- Without entries there are no bytes. -/
@[simp] theorem entriesBytes_nil : entriesBytes [] = [] := rfl

/-- The bytes of the first entry come first. -/
@[simp] theorem entriesBytes_cons (e : Entry) (es : List Entry) :
    entriesBytes (e :: es) = e.toBytes ++ entriesBytes es := List.flatMap_cons

/-- The entries of a second list are behind those of the first one. -/
@[simp] theorem entriesBytes_append (es es' : List Entry) :
    entriesBytes (es ++ es') = entriesBytes es ++ entriesBytes es' := List.flatMap_append

/-- Entries take bytes. -/
theorem entriesBytes_ne_nil {es : List Entry} (h : es ≠ []) : entriesBytes es ≠ [] := by
  obtain ⟨e, es, rfl⟩ := List.exists_cons_of_ne_nil h
  rw [entriesBytes_cons, Entry.toBytes]
  exact List.append_ne_nil_of_left_ne_nil (List.append_ne_nil_of_left_ne_nil (CString.toBytes_ne_nil _) _) _

/-! ## The header -/

/-- Source: `eos-shard-dictionary-format.h`, `struct dictionary_header`. -/
structure DictionaryHeader where
  magic : Bytes
  blockTableStart : ℕ
  bloomFilterStart : ℕ
  deriving DecidableEq, Repr

/-- `sizeof (struct dictionary_header)`. -/
abbrev DictionaryHeader.sizeof : ℕ := 24

/-- The header in memory. -/
def DictionaryHeader.toBytes (h : DictionaryHeader) : Bytes :=
  h.magic ++ (le 8 h.blockTableStart ++ le 8 h.bloomFilterStart)

/-- The header in a 24-byte buffer. -/
def DictionaryHeader.ofBytes (b : Bytes) : DictionaryHeader where
  magic := slice b 0 8
  blockTableStart := leNat (slice b 8 8)
  bloomFilterStart := leNat (slice b 16 8)

/-- A header with the right magic takes its size. -/
theorem DictionaryHeader.length_toBytes {h : DictionaryHeader} (hm : h.magic = Dictionary.magic) :
    h.toBytes.length = DictionaryHeader.sizeof := by
  simp [toBytes, hm, Dictionary.magic, ascii]

/-- **A header reads back from its bytes** if it has the right magic and its offsets fit. -/
theorem DictionaryHeader.ofBytes_toBytes {h : DictionaryHeader} (hm : h.magic = Dictionary.magic)
    (ht : h.blockTableStart < 2 ^ 64) (hf : h.bloomFilterStart < 2 ^ 64) : ofBytes h.toBytes = h := by
  have hlen : h.magic.length = 8 := by
    rw [hm]
    rfl
  have hheld := holds_self h.toBytes
  simp only [toBytes, Holds.append_iff, length_le, Nat.zero_add, hlen] at hheld
  obtain ⟨h₁, h₂, h₃⟩ := hheld
  simp only [ofBytes, toBytes, h₁.slice_eq hlen.symm, h₂.leNat_slice rfl (ht.trans_eq (by norm_num)),
    h₃.leNat_slice rfl (hf.trans_eq (by norm_num))]

/-! ## The block table -/

/-- Source: `eos-shard-dictionary-format.h`, `struct dictionary_block_table_entry`. -/
structure DictionaryBlockTableEntry where
  offset : ℕ
  length : ℕ
  deriving DecidableEq, Repr

/-- `sizeof (struct dictionary_block_table_entry)`. -/
abbrev DictionaryBlockTableEntry.sizeof : ℕ := 16

/-- The entry in memory. -/
def DictionaryBlockTableEntry.toBytes (b : DictionaryBlockTableEntry) : Bytes :=
  le 8 b.offset ++ le 8 b.length

/-- The entry in a 16-byte buffer. -/
def DictionaryBlockTableEntry.ofBytes (b : Bytes) : DictionaryBlockTableEntry where
  offset := leNat (slice b 0 8)
  length := leNat (slice b 8 8)

/-- An entry of the table takes its size. -/
@[simp] theorem DictionaryBlockTableEntry.length_toBytes (b : DictionaryBlockTableEntry) :
    b.toBytes.length = DictionaryBlockTableEntry.sizeof := by
  simp [toBytes]

/-- **An entry of the table reads back from its bytes** if its fields fit. -/
theorem DictionaryBlockTableEntry.ofBytes_toBytes {b : DictionaryBlockTableEntry}
    (ho : b.offset < 2 ^ 64) (hl : b.length < 2 ^ 64) : ofBytes b.toBytes = b := by
  have hheld := holds_self b.toBytes
  simp only [toBytes, Holds.append_iff, length_le, Nat.zero_add] at hheld
  simp only [ofBytes, toBytes, hheld.1.leNat_slice rfl (ho.trans_eq (by norm_num)),
    hheld.2.leNat_slice rfl (hl.trans_eq (by norm_num))]

end EosShard.Dictionary
