import EosShard.Names

/-!
# Hexadecimal names

`eos_shard_util_raw_name_to_hex_name` prints the bytes of a raw name one after the other, each with a NUL
that the next one overwrites; `eos_shard_util_hex_name_to_raw_name` reads pairs of digits of either case.

* `rawNameLoop_eq` is the run of the printing loop: the buffer holds the digits of all bytes.
* `hexNameLoop_flatMap` reads printed bytes back, and `flatMap_hexNameLoop` prints what has been read: the
  digits, in lower case. So the two loops are inverse to each other, up to the case.
* `hexNameLoop_snd_iff` says which characters are read to the end, and `hexNameReads_eq` that no character
  behind the NUL is looked at.
* `hexNames_convert`: **raw names survive the way to a hexadecimal name and back, and a string is accepted
  exactly if it starts with 40 digits, as long as its length is an `int`**. The length of
  `zeroDigits (2 ^ 31)` is not.
-/

namespace EosShard

open EosShard.Found

/-! ## Printing -/

/-- A digit of `%x`. -/
def hexDigit (x : ℕ) : UInt8 := if x < 10 then UInt8.ofNat (48 + x) else UInt8.ofNat (87 + x)

/-- What `sprintf` prints of a byte for `"%02x"`: both digits, the high one first. -/
def sprintf02x (b : UInt8) : Bytes := [hexDigit (b.toNat / 16), hexDigit (b.toNat % 16)]

/-- A buffer some bytes of which are overwritten. -/
def storeAt (buf : Bytes) (off : ℕ) (bs : Bytes) : Bytes :=
  buf.take off ++ bs ++ buf.drop (off + bs.length)

/-- The loop of the conversion: `i` bytes have been printed, and the others are next. -/
def rawNameLoop : Bytes → ℕ → Bytes → Bytes
  | hexName, _, [] => hexName
  | hexName, i, b :: bs => rawNameLoop (storeAt hexName (i * 2) (sprintf02x b ++ [0])) (i + 1) bs

/-- Print a raw name into a buffer.
Source: `eos-shard-shard-file.c`, `eos_shard_util_raw_name_to_hex_name`. -/
def rawNameToHexName (hexName : Bytes) (rawName : RawName) : Bytes :=
  storeAt (rawNameLoop hexName 0 rawName.toList) hexNameSize [0]

/-- The name of a record, for debugging.
Source: `eos-shard-record.c`, `eos_shard_record_get_hex_name`. -/
def recordGetHexName {π : Type} (heap : Heap) (record : EosShardRecord π) : CString :=
  cstr (storeAt (rawNameToHexName (heap 41).toList record.rawName) hexNameSize [0])

/-! ## Reading -/

/-- The loop of the other conversion, over the memory of the string: both characters of a pair are read
from their places. `none` is a read behind the memory. -/
def hexNameReads (mem : Bytes) : ℕ → ℕ → Option (Bytes × Bool)
  | 0, _ => some ([], true)
  | n + 1, i =>
      mem[i * 2]?.bind fun a => mem[i * 2 + 1]?.bind fun b =>
        match asciiXdigitValue a, asciiXdigitValue b with
        | some x, some y =>
            (hexNameReads mem n (i + 1)).map fun (stored, ok) =>
              (UInt8.ofNat (x <<< 4 ||| y) :: stored, ok)
        | _, _ => some ([], false)

/-- `hexNameToRawName` over the memory of the string. -/
def hexNameToRawNameReads (rawName : RawName) (hexName : CString) : Option (Bool × RawName) :=
  if asInt32 hexName.length < hexNameSize then some (false, rawName)
  else
    (hexNameReads hexName.toBytes rawNameSize 0).map fun (stored, ok) =>
      (ok, byteArray rawNameSize (overlay rawName.toList stored))

/-! ## Digits -/

/-- `g_ascii_tolower`. -/
def asciiTolower (c : UInt8) : UInt8 := if 65 ≤ c ∧ c ≤ 90 then c + 32 else c

/-- A digit has the value that it was written for. -/
theorem asciiXdigitValue_hexDigit {x : ℕ} (h : x < 16) : asciiXdigitValue (hexDigit x) = some x := by
  interval_cases x <;> rfl

/-- A digit is not the end of a string. -/
theorem hexDigit_ne_zero {x : ℕ} (h : x < 16) : hexDigit x ≠ 0 := by
  interval_cases x <;> decide

/-- A digit that has been read is printed in lower case. -/
theorem hexDigit_of_asciiXdigitValue {c : UInt8} {x : ℕ} (h : asciiXdigitValue c = some x) :
    x < 16 ∧ hexDigit x = asciiTolower c := by
  have hc := c.toNat_lt
  rw [asciiXdigitValue] at h
  rw [← UInt8.toNat_inj, hexDigit, asciiTolower]
  simp only [UInt8.le_iff_toNat_le, UInt8.reduceToNat] at h ⊢
  -- a decimal digit, a capital and a small letter
  split_ifs at h with hdecimal hcapital hsmall
  all_goals obtain rfl := Option.some.inj h
  · refine ⟨by omega, ?_⟩
    rw [if_pos (by omega), if_neg (by omega), UInt8.toNat_ofNat']
    omega
  · refine ⟨by omega, ?_⟩
    rw [if_neg (by omega), if_pos (by omega), UInt8.toNat_ofNat', UInt8.toNat_add,
      show (32 : UInt8).toNat = 32 from rfl]
    omega
  · refine ⟨by omega, ?_⟩
    rw [if_neg (by omega), if_neg (by omega), UInt8.toNat_ofNat']
    omega

/-- A byte that is put together from two digits. -/
theorem toNat_ofNat_or {x y : ℕ} (hx : x < 16) (hy : y < 16) :
    (UInt8.ofNat (x <<< 4 ||| y)).toNat = x * 16 + y := by
  rw [← Nat.shiftLeft_add_eq_or_of_lt (i := 4) hy, Nat.shiftLeft_eq, UInt8.toNat_ofNat']
  omega

/-- A byte is written as its two digits. -/
theorem sprintf02x_ofNat_or {x y : ℕ} (hx : x < 16) (hy : y < 16) :
    sprintf02x (UInt8.ofNat (x <<< 4 ||| y)) = [hexDigit x, hexDigit y] := by
  rw [sprintf02x, toNat_ofNat_or hx hy, show (x * 16 + y) / 16 = x by omega,
    show (x * 16 + y) % 16 = y by omega]

/-- A byte is put together from its two halves. -/
theorem ofNat_or_of_toNat (b : UInt8) :
    UInt8.ofNat ((b.toNat / 16) <<< 4 ||| b.toNat % 16) = b := by
  have hb := b.toNat_lt
  apply UInt8.toNat_inj.mp
  rw [toNat_ofNat_or (by omega) (by omega)]
  omega

/-! ## The two loops -/

/-- Printed bytes are read back. -/
theorem hexNameLoop_flatMap (bs rest : Bytes) :
    hexNameLoop bs.length (bs.flatMap sprintf02x ++ rest) = (bs, true) := by
  induction bs with
  | nil => unfold hexNameLoop; rfl
  | cons b bs ih =>
      have hb := b.toNat_lt
      have hhigh := asciiXdigitValue_hexDigit (x := b.toNat / 16) (by omega)
      have hlow := asciiXdigitValue_hexDigit (x := b.toNat % 16) (by omega)
      rw [List.flatMap_cons, sprintf02x, List.append_assoc, List.cons_append, List.cons_append,
        List.nil_append, List.length_cons, hexNameLoop_cons hhigh hlow, ih, ofNat_or_of_toNat]

/-- Different bytes are written differently. -/
theorem flatMap_sprintf02x_inj {bs cs : Bytes} (hlen : bs.length = cs.length) :
    bs.flatMap sprintf02x = cs.flatMap sprintf02x ↔ bs = cs := by
  refine ⟨fun h => ?_, fun h => by rw [h]⟩
  have hbs := hexNameLoop_flatMap bs []
  rw [h, hlen, hexNameLoop_flatMap] at hbs
  exact (Prod.mk.inj hbs).1.symm

/-- What has been read is printed in lower case. -/
theorem flatMap_hexNameLoop {n : ℕ} {cs : Bytes} (h : (hexNameLoop n cs).2 = true) :
    (hexNameLoop n cs).1.flatMap sprintf02x = (cs.take (n * 2)).map asciiTolower := by
  induction n generalizing cs with
  | zero =>
      unfold hexNameLoop
      rw [Nat.zero_mul, List.take_zero]
      rfl
  | succ n ih =>
      obtain ⟨a, b, rest, x, y, rfl, ha, hb, hrest⟩ := exists_of_hexNameLoop_succ h
      obtain ⟨hx, ha'⟩ := hexDigit_of_asciiXdigitValue ha
      obtain ⟨hy, hb'⟩ := hexDigit_of_asciiXdigitValue hb
      rw [hexNameLoop_cons ha hb, List.flatMap_cons, ih hrest, sprintf02x_ofNat_or hx hy, ha', hb',
        Nat.succ_mul, List.take_succ_cons, List.take_succ_cons, List.map_cons, List.map_cons]
      rfl

/-- The loop runs to its end over digits, and over nothing else. -/
theorem hexNameLoop_snd_iff {n : ℕ} {cs : Bytes} :
    (hexNameLoop n cs).2 = true ↔
      n * 2 ≤ cs.length ∧ ∀ c ∈ cs.take (n * 2), (asciiXdigitValue c).isSome = true := by
  induction n generalizing cs with
  | zero => simp [hexNameLoop]
  | succ n ih =>
      constructor
      · intro h
        obtain ⟨a, b, rest, x, y, rfl, ha, hb, hrest⟩ := exists_of_hexNameLoop_succ h
        obtain ⟨hlen, hdigits⟩ := ih.mp hrest
        refine ⟨by simp only [List.length_cons]; omega, ?_⟩
        rw [Nat.succ_mul, List.take_succ_cons, List.take_succ_cons, List.forall_mem_cons,
          List.forall_mem_cons]
        exact ⟨by rw [ha]; rfl, by rw [hb]; rfl, hdigits⟩
      · rintro ⟨hlen, hdigits⟩
        obtain ⟨a, b, rest, rfl⟩ : ∃ a b rest, cs = a :: b :: rest := by
          rcases cs with _ | ⟨a, _ | ⟨b, rest⟩⟩
          · simp only [List.length_nil] at hlen
            omega
          · simp only [List.length_cons, List.length_nil] at hlen
            omega
          · exact ⟨a, b, rest, rfl⟩
        rw [Nat.succ_mul, List.take_succ_cons, List.take_succ_cons, List.forall_mem_cons,
          List.forall_mem_cons] at hdigits
        obtain ⟨ha, hb, hrest⟩ := hdigits
        obtain ⟨x, ha⟩ := Option.isSome_iff_exists.mp ha
        obtain ⟨y, hb⟩ := Option.isSome_iff_exists.mp hb
        rw [hexNameLoop_cons ha hb]
        exact ih.mpr ⟨by simp only [List.length_cons] at hlen; omega, hrest⟩

/-- Up to the end of the string, the loop over the memory does not leave it. -/
theorem hexNameReads_eq (s : CString) {n i : ℕ} (h : (i + n) * 2 ≤ s.length) :
    hexNameReads s.toBytes n i = some (hexNameLoop n (s.chars.drop (i * 2))) := by
  induction n generalizing i with
  | zero => simp only [hexNameReads, hexNameLoop]
  | succ n ih =>
      have hlen : s.length = s.chars.length := rfl
      have ha : i * 2 < s.chars.length := by omega
      have hb : i * 2 + 1 < s.chars.length := by omega
      have hread : ∀ k (hk : k < s.chars.length), s.toBytes[k]? = some s.chars[k] := fun k hk => by
        rw [CString.toBytes, List.getElem?_append_left hk, List.getElem?_eq_getElem hk]
      rw [hexNameReads, hread _ ha, hread _ hb, Option.bind_some, Option.bind_some,
        List.drop_eq_getElem_cons ha, List.drop_eq_getElem_cons hb]
      have hnext := ih (i := i + 1) (by omega)
      rw [Nat.succ_mul] at hnext
      cases hx : asciiXdigitValue s.chars[i * 2] with
      | none => simp only [hexNameLoop, hx]
      | some x =>
          cases hy : asciiXdigitValue s.chars[i * 2 + 1] with
          | none => simp only [hexNameLoop, hx, hy]
          | some y =>
              rw [hexNameLoop_cons hx hy]
              simp only [hnext, Option.map_some]

/-- The run of the printing loop: the buffer holds the digits of all bytes, and as much as before behind
them. -/
theorem rawNameLoop_eq (bs : Bytes) (i : ℕ) (pre rest : Bytes) (hpre : pre.length = i * 2)
    (hrest : bs.length * 2 < rest.length) :
    ∃ rest', rawNameLoop (pre ++ rest) i bs = pre ++ bs.flatMap sprintf02x ++ rest' ∧
      rest'.length + bs.length * 2 = rest.length := by
  induction bs generalizing i pre rest with
  | nil => exact ⟨rest, by simp [rawNameLoop], by simp⟩
  | cons b bs ih =>
      rw [List.length_cons] at hrest
      have hstore : storeAt (pre ++ rest) (i * 2) (sprintf02x b ++ [0]) =
          (pre ++ sprintf02x b) ++ 0 :: rest.drop 3 := by
        have hthree : (sprintf02x b ++ [0]).length = 3 := rfl
        rw [storeAt, hthree, ← hpre, List.take_left, List.drop_append, List.append_assoc]
        simp [List.drop_eq_nil_of_le]
      obtain ⟨rest', heq, hlen⟩ := ih (i + 1) (pre ++ sprintf02x b) (0 :: rest.drop 3)
        (by rw [List.length_append, hpre, sprintf02x, Nat.succ_mul]; rfl)
        (by rw [List.length_cons, List.length_drop]; omega)
      refine ⟨rest', ?_, ?_⟩
      · rw [rawNameLoop, hstore, heq, List.flatMap_cons, List.append_assoc pre]
      · rw [List.length_cons, List.length_drop] at hlen
        rw [List.length_cons]
        omega

/-! ## The conversions -/

/-- Every byte is written with two digits. -/
theorem length_flatMap_sprintf02x (bs : Bytes) : (bs.flatMap sprintf02x).length = bs.length * 2 := by
  induction bs with
  | nil => rfl
  | cons b bs ih =>
      rw [List.flatMap_cons, List.length_append, ih, List.length_cons, Nat.succ_mul, Nat.add_comm]
      rfl

/-- The digits of a raw name. -/
theorem length_flatMap_rawName (rawName : RawName) :
    (rawName.toList.flatMap sprintf02x).length = hexNameSize := by
  rw [length_flatMap_sprintf02x, rawName.toList_length]
  rfl

/-- There is no zero among the digits. -/
theorem zero_not_mem_flatMap_sprintf02x (bs : Bytes) : (0 : UInt8) ∉ bs.flatMap sprintf02x := by
  intro h
  obtain ⟨b, -, hb⟩ := List.mem_flatMap.mp h
  have hlt := b.toNat_lt
  rw [sprintf02x, List.mem_pair] at hb
  rcases hb with hb | hb
  · exact hexDigit_ne_zero (by omega) hb.symm
  · exact hexDigit_ne_zero (by omega) hb.symm

/-- **What is printed** fills the buffer. -/
theorem rawNameToHexName_eq (hexName : List.Vector UInt8 (hexNameSize + 1)) (rawName : RawName) :
    rawNameToHexName hexName.toList rawName = rawName.toList.flatMap sprintf02x ++ [0] := by
  have hlen := length_flatMap_rawName rawName
  obtain ⟨rest, heq, hrest⟩ := rawNameLoop_eq rawName.toList 0 [] hexName.toList rfl
    (by rw [rawName.toList_length, hexName.toList_length]; decide)
  have hone : rest.length = 1 := by
    rw [rawName.toList_length, hexName.toList_length] at hrest
    exact Nat.add_right_cancel (hrest.trans (Nat.add_comm hexNameSize 1))
  rw [List.nil_append, List.nil_append] at heq
  rw [rawNameToHexName, heq, storeAt, List.take_left' hlen, List.drop_eq_nil_of_le, List.append_nil]
  rw [List.length_append, hlen, hone, List.length_singleton]

/-- The string of a raw name has its digits, whatever was in the buffer. -/
theorem chars_cstr_rawNameToHexName (hexName : List.Vector UInt8 (hexNameSize + 1)) (rawName : RawName) :
    (cstr (rawNameToHexName hexName.toList rawName)).chars = rawName.toList.flatMap sprintf02x := by
  rw [rawNameToHexName_eq, cstr_append_zero (zero_not_mem_flatMap_sprintf02x _)]

/-- The name of a record is its raw name, printed. -/
theorem recordGetHexName_eq {π : Type} (heap : Heap) (record : EosShardRecord π) :
    recordGetHexName heap record = cstr (rawNameToHexName (heap 41).toList record.rawName) := by
  have hlen := length_flatMap_rawName record.rawName
  rw [recordGetHexName, rawNameToHexName_eq (heap 41), storeAt, List.take_left' hlen,
    List.drop_eq_nil_of_le, List.append_nil]
  rw [List.length_append, hlen, List.length_singleton]

/-- A string that starts with 40 hexadecimal digits. -/
def IsHexName (s : CString) : Prop :=
  hexNameSize ≤ s.length ∧ ∀ c ∈ s.chars.take hexNameSize, (asciiXdigitValue c).isSome = true

/-- Which strings are accepted. -/
theorem hexNameToRawName_fst_iff (rawName : RawName) (s : CString) :
    (hexNameToRawName rawName s).1 = true ↔ (hexNameSize : ℤ) ≤ asInt32 s.length ∧ IsHexName s := by
  rcases lt_or_ge (asInt32 s.length) hexNameSize with hshort | hlong
  · simp only [hexNameToRawName_of_lt hshort, not_le.mpr hshort, reduceCtorEq, false_and]
  · rw [hexNameToRawName_of_le hlong, hexNameLoop_snd_iff]
    exact ⟨fun h => ⟨hlong, h⟩, And.right⟩

/-- The result of an accepted string. -/
theorem hexNameToRawName_snd {rawName : RawName} {s : CString} (h : (hexNameToRawName rawName s).1 = true) :
    (hexNameToRawName rawName s).2.toList = (hexNameLoop rawNameSize s.chars).1 := by
  have hlong := ((hexNameToRawName_fst_iff rawName s).mp h).1
  rw [hexNameToRawName_of_le hlong] at h ⊢
  have hlen := length_hexNameLoop h
  rw [overlay_full (by rw [hlen, rawName.toList_length])]
  show List.takeD _ _ _ = _
  rw [List.takeD_eq_take _ hlen.ge, List.take_of_length_le hlen.le]

/-- The conversion of a string is what it is meant to be, whatever is in the buffers. -/
structure Converts (s : CString) : Prop where
  accepted_iff : ∀ rawName, (hexNameToRawName rawName s).1 = true ↔ IsHexName s
  /-- No character behind the NUL is read. -/
  reads : ∀ rawName, hexNameToRawNameReads rawName s = some (hexNameToRawName rawName s)
  /-- The result is printed as the 40 digits in lower case. -/
  printed : ∀ rawName (hexName : List.Vector UInt8 (hexNameSize + 1)),
    (hexNameToRawName rawName s).1 = true →
      (cstr (rawNameToHexName hexName.toList (hexNameToRawName rawName s).2)).chars =
        (s.chars.take hexNameSize).map asciiTolower

/-- The conversion does not read beyond the end of the string. -/
theorem hexNameToRawNameReads_eq (rawName : RawName) (s : CString) :
    hexNameToRawNameReads rawName s = some (hexNameToRawName rawName s) := by
  rcases lt_or_ge (asInt32 s.length) hexNameSize with hshort | hlong
  · rw [hexNameToRawName_of_lt hshort, hexNameToRawNameReads, if_pos hshort]
  · have hlen : (0 + rawNameSize) * 2 ≤ s.length := le_of_le_asInt32 hlong
    rw [hexNameToRawName_of_le hlong, hexNameToRawNameReads, if_neg (not_lt.mpr hlong),
      hexNameReads_eq s hlen, Nat.zero_mul, List.drop_zero]
    rfl

/-- The digits of an accepted string come back in lower case. -/
theorem chars_cstr_of_accepted {rawName : RawName} {s : CString}
    (h : (hexNameToRawName rawName s).1 = true) (hexName : List.Vector UInt8 (hexNameSize + 1)) :
    (cstr (rawNameToHexName hexName.toList (hexNameToRawName rawName s).2)).chars =
      (s.chars.take hexNameSize).map asciiTolower := by
  rw [chars_cstr_rawNameToHexName, hexNameToRawName_snd h]
  rw [hexNameToRawName_of_le ((hexNameToRawName_fst_iff rawName s).mp h).1] at h
  exact flatMap_hexNameLoop h

/-- A string is converted as it should be exactly if its length, as an `int`, is not too small for a name.
-/
theorem converts_iff (s : CString) :
    Converts s ↔ (IsHexName s → (hexNameSize : ℤ) ≤ asInt32 s.length) := by
  constructor
  · intro h hs
    exact ((hexNameToRawName_fst_iff zeroRawName s).mp ((h.accepted_iff zeroRawName).mpr hs)).1
  · intro h
    refine ⟨fun rawName => ?_, fun rawName => hexNameToRawNameReads_eq rawName s,
      fun rawName hexName haccepted => chars_cstr_of_accepted haccepted hexName⟩
    rw [hexNameToRawName_fst_iff]
    exact ⟨And.right, fun hs => ⟨h hs, hs⟩⟩

/-- A printed raw name is read back. -/
theorem hexNameToRawName_rawNameToHexName (buf : RawName) (hexName : List.Vector UInt8 (hexNameSize + 1))
    (rawName : RawName) :
    hexNameToRawName buf (cstr (rawNameToHexName hexName.toList rawName)) = (true, rawName) := by
  obtain ⟨s, hs⟩ : ∃ s, s = cstr (rawNameToHexName hexName.toList rawName) := ⟨_, rfl⟩
  have hchars : s.chars = rawName.toList.flatMap sprintf02x := hs ▸ chars_cstr_rawNameToHexName hexName rawName
  have hlen : s.length = hexNameSize := by
    rw [CString.length, hchars, length_flatMap_rawName]
  have hloop : hexNameLoop rawNameSize s.chars = (rawName.toList, true) := by
    have hrun := hexNameLoop_flatMap rawName.toList []
    rwa [List.append_nil, rawName.toList_length, ← hchars] at hrun
  have hlong : (hexNameSize : ℤ) ≤ asInt32 s.length := by
    rw [hlen, asInt32_of_lt (by norm_num)]
  rw [← hs, hexNameToRawName_of_le hlong, hloop, overlay_full (by simp), byteArray_toList]

/-- Two accepted strings have one raw name if their digits are the same up to the case. -/
theorem rawNameOf_eq_iff {s t : CString} (hs : AcceptedName s) (ht : AcceptedName t) :
    rawNameOf s = rawNameOf t ↔
      (s.chars.take hexNameSize).map asciiTolower = (t.chars.take hexNameSize).map asciiTolower := by
  have hexName : List.Vector UInt8 (hexNameSize + 1) := List.Vector.replicate _ 0
  have hprinted : ∀ {u : CString}, AcceptedName u →
      (rawNameOf u).toList.flatMap sprintf02x = (u.chars.take hexNameSize).map asciiTolower := fun hu =>
    (chars_cstr_rawNameToHexName hexName _).symm.trans (chars_cstr_of_accepted hu hexName)
  rw [← hprinted hs, ← hprinted ht, flatMap_sprintf02x_inj (by simp)]
  exact ⟨fun h => by rw [h], fun h => List.Vector.eq _ _ h⟩

/-- **Raw and hexadecimal names convert consistently**, as long as the length of a string that starts with
40 digits is an `int` that is not below 40: in particular for every string below 2 GiB. -/
theorem hexNames_convert (s : CString) :
    (Converts s ↔ (IsHexName s → (hexNameSize : ℤ) ≤ asInt32 s.length)) ∧
      (s.length < 2 ^ 31 → Converts s) ∧
      (∀ t, AcceptedName s → AcceptedName t → (rawNameOf s = rawNameOf t ↔
        (s.chars.take hexNameSize).map asciiTolower = (t.chars.take hexNameSize).map asciiTolower)) ∧
      (∀ (buf : RawName) (hexName : List.Vector UInt8 (hexNameSize + 1)) (rawName : RawName),
        hexNameToRawName buf (cstr (rawNameToHexName hexName.toList rawName)) = (true, rawName)) ∧
      ∀ (π : Type) (heap : Heap) (buf : RawName) (record : EosShardRecord π),
        hexNameToRawName buf (recordGetHexName heap record) = (true, record.rawName) := by
  refine ⟨converts_iff s, fun hlt => ?_, fun t hs ht => rawNameOf_eq_iff hs ht,
    hexNameToRawName_rawNameToHexName, fun π heap buf record => ?_⟩
  · rw [converts_iff, asInt32_of_lt hlt]
    exact fun hs => Nat.cast_le.mpr hs.1
  · rw [recordGetHexName_eq]
    exact hexNameToRawName_rawNameToHexName buf (heap 41) record.rawName

/-- A string of zeros. -/
def zeroDigits (n : ℕ) : CString :=
  ⟨List.replicate n 48, fun h => absurd (List.eq_of_mem_replicate h) (by decide)⟩

/-- Forty zeros or more are the digits of a name. -/
theorem isHexName_zeroDigits {n : ℕ} (h : hexNameSize ≤ n) : IsHexName (zeroDigits n) := by
  refine ⟨by rwa [zeroDigits, CString.length, List.length_replicate], fun c hc => ?_⟩
  rw [List.eq_of_mem_replicate (List.mem_of_mem_take hc)]
  rfl

/-- A string of digits whose length is no `int`. -/
theorem zeroDigits_not_converts :
    IsHexName (zeroDigits (2 ^ 31)) ∧ (hexNameToRawName zeroRawName (zeroDigits (2 ^ 31))).1 = false ∧
      ¬ Converts (zeroDigits (2 ^ 31)) := by
  have hlen : (zeroDigits (2 ^ 31)).length = 2 ^ 31 := List.length_replicate
  have hdigits : IsHexName (zeroDigits (2 ^ 31)) := isHexName_zeroDigits (by norm_num)
  have hrejected : (hexNameToRawName zeroRawName (zeroDigits (2 ^ 31))).1 = false := by
    rw [hexNameToRawName_of_lt]
    rw [hlen, asInt32_lt_iff]
    exact Or.inr (by norm_num)
  refine ⟨hdigits, hrejected, fun h => ?_⟩
  rw [(h.accepted_iff zeroRawName).mpr hdigits] at hrejected
  cases hrejected

end EosShard
