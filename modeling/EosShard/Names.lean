import EosShard.Common

/-!
# Record names

The conversion of a hexadecimal record name into the raw name. The loop fills the caller's buffer
byte by byte and stops at the first pair that is not two hexadecimal digits, so a rejected name
leaves a prefix behind.
-/

namespace EosShard

open EosShard.Found

/-- `g_ascii_xdigit_value`; `none` is its `-1`, and `g_ascii_isxdigit` is `isSome`. -/
def asciiXdigitValue (c : UInt8) : Option ℕ :=
  if 48 ≤ c ∧ c ≤ 57 then some (c.toNat - 48)
  else if 65 ≤ c ∧ c ≤ 70 then some (c.toNat - 65 + 10)
  else if 97 ≤ c ∧ c ≤ 102 then some (c.toNat - 97 + 10)
  else none

/-- The loop of the conversion: the bytes it stores for the next `n` pairs of characters, and
whether it runs to its end. -/
def hexNameLoop : ℕ → Bytes → Bytes × Bool
  | n + 1, a :: b :: rest =>
      match asciiXdigitValue a, asciiXdigitValue b with
      | some x, some y =>
          let (stored, ok) := hexNameLoop n rest
          (UInt8.ofNat (x <<< 4 ||| y) :: stored, ok)
      | _, _ => ([], false)
  | 0, _ => ([], true)
  | _ + 1, _ => ([], false)

/-- Convert a hexadecimal name; the answer is the success flag and the buffer afterwards. What follows
the first 40 characters is not looked at. The length that is tested is an `int`.
Source: `eos-shard-shard-file.c`, `eos_shard_util_hex_name_to_raw_name`. -/
def hexNameToRawName (rawName : RawName) (hexName : CString) : Bool × RawName :=
  if asInt32 hexName.length < hexNameSize then (false, rawName)
  else
    let (stored, ok) := hexNameLoop rawNameSize hexName.chars
    (ok, byteArray rawNameSize (overlay rawName.toList stored))

/-- A zeroed name buffer. -/
def zeroRawName : RawName := List.Vector.replicate rawNameSize 0

/-- The raw name the writers file a record under. -/
def rawNameOf (hexName : CString) : RawName := (hexNameToRawName zeroRawName hexName).2

/-- The conversion of a name succeeds. It does not depend on the buffer. -/
def AcceptedName (hexName : CString) : Prop := (hexNameToRawName zeroRawName hexName).1 = true

/-- Whether a name is accepted can be decided. -/
instance (hexName : CString) : Decidable (AcceptedName hexName) :=
  inferInstanceAs (Decidable (_ = _))

/-- A string whose length, as an `int`, is too small is not converted. -/
theorem hexNameToRawName_of_lt {rawName : RawName} {hexName : CString}
    (h : asInt32 hexName.length < hexNameSize) : hexNameToRawName rawName hexName = (false, rawName) :=
  if_pos h

/-- A string of sufficient length is converted up to its first bad digit. -/
theorem hexNameToRawName_of_le {rawName : RawName} {hexName : CString}
    (h : (hexNameSize : ℤ) ≤ asInt32 hexName.length) :
    hexNameToRawName rawName hexName = ((hexNameLoop rawNameSize hexName.chars).2,
      byteArray rawNameSize (overlay rawName.toList (hexNameLoop rawNameSize hexName.chars).1)) :=
  if_neg (not_lt.mpr h)

/-- One iteration at a pair of digits. -/
theorem hexNameLoop_cons {a b : UInt8} {x y : ℕ} (ha : asciiXdigitValue a = some x)
    (hb : asciiXdigitValue b = some y) (n : ℕ) (rest : Bytes) :
    hexNameLoop (n + 1) (a :: b :: rest) =
      (UInt8.ofNat (x <<< 4 ||| y) :: (hexNameLoop n rest).1, (hexNameLoop n rest).2) := by
  simp only [hexNameLoop, ha, hb]

/-- A loop that runs to its end starts at a pair of digits. -/
theorem exists_of_hexNameLoop_succ {n : ℕ} {cs : Bytes} (h : (hexNameLoop (n + 1) cs).2 = true) :
    ∃ a b rest x y, cs = a :: b :: rest ∧ asciiXdigitValue a = some x ∧ asciiXdigitValue b = some y ∧
      (hexNameLoop n rest).2 = true := by
  match cs with
  | [] => cases h
  | [_] => cases h
  | a :: b :: rest =>
      unfold hexNameLoop at h
      cases ha : asciiXdigitValue a with
      | none =>
          rw [ha] at h
          cases h
      | some x =>
          cases hb : asciiXdigitValue b with
          | none =>
              rw [ha, hb] at h
              cases h
          | some y =>
              rw [ha, hb] at h
              exact ⟨a, b, rest, x, y, rfl, ha, hb, h⟩

/-- A loop that runs to its end has stored all its bytes. -/
theorem length_hexNameLoop {n : ℕ} {cs : Bytes} (h : (hexNameLoop n cs).2 = true) :
    (hexNameLoop n cs).1.length = n := by
  induction n generalizing cs with
  | zero => unfold hexNameLoop; rfl
  | succ n ih =>
      obtain ⟨a, b, rest, x, y, rfl, ha, hb, hrest⟩ := exists_of_hexNameLoop_succ h
      rw [hexNameLoop_cons ha hb, List.length_cons, ih hrest]

/-- **Whether a name is accepted does not depend on what is in the buffer, and an accepted name
overwrites all of it.** -/
theorem hexNameToRawName_spec (rawName : RawName) (hexName : CString) :
    (hexNameToRawName rawName hexName).1 = (hexNameToRawName zeroRawName hexName).1 ∧
      (AcceptedName hexName → (hexNameToRawName rawName hexName).2 = rawNameOf hexName) := by
  rw [AcceptedName, rawNameOf]
  rcases lt_or_ge (asInt32 hexName.length) hexNameSize with hshort | hlong
  · simp only [hexNameToRawName_of_lt hshort, reduceCtorEq, false_implies, and_self]
  · simp only [hexNameToRawName_of_le hlong, true_and]
    intro hok
    have hlen := length_hexNameLoop hok
    have hfull : ∀ buf : RawName, overlay buf.toList (hexNameLoop rawNameSize hexName.chars).1 =
        (hexNameLoop rawNameSize hexName.chars).1 := fun buf =>
      overlay_full (by rw [hlen, List.Vector.toList_length])
    rw [hfull, hfull]

end EosShard
