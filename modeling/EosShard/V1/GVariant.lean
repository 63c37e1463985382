import EosShard.V1.Format
import EosShard.Found.Framing

/-!
# The serialisation of the header

The GVariant format at the types of the V1 header: strings end with a NUL, `u` and `t` are fixed-size
integers aligned to their size, tuples and arrays are the containers of `Found.Framing`. Every tuple
here contains a string or an array, so none has a fixed size.

`gvariant_lawful`: this is a `GVariantFormat` on which the shard code can rely.
-/

namespace EosShard.V1

open EosShard.Found

/-- The members of a blob entry, `sayuttt`. -/
def BlobEntry.members (b : BlobEntry) : List (Slot × Bytes) :=
  [(⟨1, none⟩, b.contentType.toBytes), (⟨1, none⟩, b.checksum), (⟨4, some 4⟩, le 4 b.flags),
    (⟨8, some 8⟩, le 8 b.offs), (⟨8, some 8⟩, le 8 b.size), (⟨8, some 8⟩, le 8 b.uncompressedSize)]

/-- The members of a record entry, `ay(sayuttt)(sayuttt)`. -/
def RecordEntry.members (r : RecordEntry) : List (Slot × Bytes) :=
  [(⟨1, none⟩, r.rawName), (⟨8, none⟩, packTuple r.metadata.members),
    (⟨8, none⟩, packTuple r.data.members)]

/-- The members of the header, `sa(ay(sayuttt)(sayuttt))`. -/
def HeaderEntry.members (h : HeaderEntry) : List (Slot × Bytes) :=
  [(⟨1, none⟩, h.magic.toBytes),
    (⟨8, none⟩, packArray 8 (h.records.map fun r => packTuple r.members))]

/-- A string; what is not NUL-terminated UTF-8 is read as the empty string. -/
def stringOf (bs : Bytes) : CString :=
  if bs = (cstr bs).toBytes ∧ utf8Validate (cstr bs).chars = true then cstr bs else CString.empty

/-- A blob entry in a buffer. -/
def blobEntryOfBytes (bs : Bytes) : BlobEntry :=
  match unpackTuple [⟨1, none⟩, ⟨1, none⟩, ⟨4, some 4⟩, ⟨8, some 8⟩, ⟨8, some 8⟩, ⟨8, some 8⟩] bs with
  | [s, ay, u, t₁, t₂, t₃] => ⟨stringOf s, ay, leNat u, leNat t₁, leNat t₂, leNat t₃⟩
  | _ => ⟨CString.empty, [], 0, 0, 0, 0⟩

/-- A record entry in a buffer. -/
def recordEntryOfBytes (bs : Bytes) : RecordEntry :=
  match unpackTuple [⟨1, none⟩, ⟨8, none⟩, ⟨8, none⟩] bs with
  | [ay, metadata, data] => ⟨ay, blobEntryOfBytes metadata, blobEntryOfBytes data⟩
  | _ => ⟨[], blobEntryOfBytes [], blobEntryOfBytes []⟩

/-- A header in a buffer. -/
def headerEntryOfBytes (bs : Bytes) : HeaderEntry :=
  match unpackTuple [⟨1, none⟩, ⟨8, none⟩] bs with
  | [s, a] => ⟨stringOf s, (unpackArray 8 a).map recordEntryOfBytes⟩
  | _ => ⟨CString.empty, []⟩

/-- The GVariant library at the type of the header. -/
def gvariant : GVariantFormat where
  serialise h := packTuple h.members
  deserialise := headerEntryOfBytes

/-! ## Round trips -/

/-- A string in UTF-8 reads back. -/
theorem stringOf_toBytes {s : CString} (h : utf8Validate s.chars = true) :
    stringOf s.toBytes = s := by
  rw [stringOf, cstr_toBytes, if_pos ⟨rfl, h⟩]

/-- The entry of a blob reads back. -/
theorem blobEntryOfBytes_packTuple {b : BlobEntry} (hb : b.WellFormed)
    (hlt : (packTuple b.members).length < 2 ^ 64) :
    blobEntryOfBytes (packTuple b.members) = b := by
  have h := unpackTuple_packTuple b.members (by simp [BlobEntry.members])
    (by simp [BlobEntry.members]) hlt
  simp only [BlobEntry.members, List.map_cons, List.map_nil] at h
  simp only [blobEntryOfBytes, BlobEntry.members, h, stringOf_toBytes hb.contentType,
    leNat_le_of_lt (w := 4) (n := b.flags) (by simpa using hb.flags),
    leNat_le_of_lt (w := 8) (n := b.offs) (by simpa using hb.offs),
    leNat_le_of_lt (w := 8) (n := b.size) (by simpa using hb.size),
    leNat_le_of_lt (w := 8) (n := b.uncompressedSize) (by simpa using hb.uncompressedSize)]

/-- The entry of a record reads back. -/
theorem recordEntryOfBytes_packTuple {r : RecordEntry} (hr : r.WellFormed)
    (hlt : (packTuple r.members).length < 2 ^ 64) :
    recordEntryOfBytes (packTuple r.members) = r := by
  have hm : (packTuple r.metadata.members).length ≤ (packTuple r.members).length :=
    length_le_length_packTuple (m := (⟨8, none⟩, packTuple r.metadata.members))
      (by simp [RecordEntry.members])
  have hd : (packTuple r.data.members).length ≤ (packTuple r.members).length :=
    length_le_length_packTuple (m := (⟨8, none⟩, packTuple r.data.members))
      (by simp [RecordEntry.members])
  have h := unpackTuple_packTuple r.members (by simp [RecordEntry.members])
    (by simp [RecordEntry.members]) hlt
  simp only [RecordEntry.members, List.map_cons, List.map_nil] at h
  rw [recordEntryOfBytes]
  simp only [RecordEntry.members, h]
  rw [blobEntryOfBytes_packTuple hr.metadata (by omega),
    blobEntryOfBytes_packTuple hr.data (by omega)]

/-- **The header reads back** if it is well formed and below 2^64 bytes. -/
theorem headerEntryOfBytes_packTuple {h : HeaderEntry} (hh : h.WellFormed)
    (hlt : (packTuple h.members).length < 2 ^ 64) :
    headerEntryOfBytes (packTuple h.members) = h := by
  obtain ⟨bss, hbss⟩ : ∃ bss, bss = h.records.map fun r => packTuple r.members := ⟨_, rfl⟩
  have ha : (packArray 8 bss).length ≤ (packTuple h.members).length :=
    length_le_length_packTuple (m := (⟨8, none⟩, packArray 8 bss))
      (by simp [HeaderEntry.members, hbss])
  have hu := unpackTuple_packTuple h.members (by simp [HeaderEntry.members])
    (by simp [HeaderEntry.members]) hlt
  simp only [HeaderEntry.members, List.map_cons, List.map_nil, ← hbss] at hu
  rw [headerEntryOfBytes]
  simp only [HeaderEntry.members, ← hbss, hu, stringOf_toBytes hh.magic,
    unpackArray_packArray (by norm_num : 0 < 8) (show (packArray 8 bss).length < 2 ^ 64 by omega)]
  have hrecords : bss.map recordEntryOfBytes = h.records := by
    rw [hbss, List.map_map, List.map_congr_left fun r hr => ?_, List.map_id]
    refine recordEntryOfBytes_packTuple (hh.records r hr) ?_
    have : (packTuple r.members).length ≤ (packArray 8 bss).length :=
      length_le_length_packArray (hbss ▸ List.mem_map_of_mem hr)
    omega
  rw [hrecords]

/-! ## Sizes -/

/-- The size of a blob's entry depends on its shape only. -/
theorem length_blobEntry {b b' : BlobEntry} (h : b.shape = b'.shape) :
    (packTuple b.members).length = (packTuple b'.members).length := by
  simp only [BlobEntry.shape, Prod.mk.injEq] at h
  have hsize : b.contentType.size = b'.contentType.size := congrArg (· + 1) h.1
  refine length_packTuple_eq ?_
  simp only [BlobEntry.members, List.map_cons, List.map_nil, CString.length_toBytes, length_le, hsize,
    h.2]

/-- The size of a record's entry depends on its shape only. -/
theorem length_recordEntry {r r' : RecordEntry} (h : r.shape = r'.shape) :
    (packTuple r.members).length = (packTuple r'.members).length := by
  simp only [RecordEntry.shape, Prod.mk.injEq] at h
  refine length_packTuple_eq ?_
  simp only [RecordEntry.members, List.map_cons, List.map_nil, h.1, length_blobEntry h.2.1,
    length_blobEntry h.2.2]

/-- The size of a header depends on its shape only. -/
theorem length_headerEntry {h h' : HeaderEntry} (hs : h.shape = h'.shape) :
    (packTuple h.members).length = (packTuple h'.members).length := by
  simp only [HeaderEntry.shape, Prod.mk.injEq] at hs
  have hrec : (h.records.map fun r => packTuple r.members).map List.length =
      (h'.records.map fun r => packTuple r.members).map List.length := by
    have hs₂ := hs.2
    revert hs₂
    generalize h.records = rs, h'.records = rs'
    intro hs₂
    induction rs generalizing rs' with
    | nil =>
        rw [List.map_nil, eq_comm, List.map_eq_nil_iff] at hs₂
        rw [hs₂]
    | cons r rs ih =>
        cases rs' with
        | nil => cases hs₂
        | cons r' rs' =>
            simp only [List.map_cons, List.cons.injEq] at hs₂ ⊢
            exact ⟨length_recordEntry hs₂.1, ih rs' hs₂.2⟩
  have hsize : h.magic.size = h'.magic.size := congrArg (· + 1) hs.1
  refine length_packTuple_eq ?_
  simp only [HeaderEntry.members, List.map_cons, List.map_nil, CString.length_toBytes, hsize,
    length_packArray_eq hrec]

/-- **The format is lawful.** -/
theorem gvariant_lawful : gvariant.Lawful where
  deserialise_serialise h hh hlt := headerEntryOfBytes_packTuple hh (hlt.trans (by norm_num))
  length_serialise _ _ := length_headerEntry
  holds_magic h := by
    have hpack : packTuple h.members = h.magic.toBytes ++ (body (alignUp 1 0 + h.magic.toBytes.length)
        [(⟨8, none⟩, packArray 8 (h.records.map fun r => packTuple r.members))] ++
        offsetTable (offsetWidth (body 0 h.members).length (frames false 0 h.members).length)
          (frames false 0 h.members).reverse) := by
      rw [← List.append_assoc]
      rfl
    exact (holds_parts hpack).1

end EosShard.V1
