/-
# The binary slot-bitmap codec

`bitsetEncode` and `bitsetDecode` of `utils/string.h`: a 4-byte big-endian length
`encsize`, then each entry of the run-pair vector as 2 big-endian bytes.

* `bitsetDecodeString_bitsetEncode` : below `65536` slots, decoding an encoded bitmap
  followed by any bytes gives the bitmap back;
* `bitsetEncodeSize_eq_length` : `bitsetEncodeSize` is the length of the encoding, `4`
  bytes and `4` per run of set slots, at most one run in two slots;
* `bitsetDecode_odd_payload_and_short_header` : on a declared length `L = 5` the payload
  loop reads byte `5`, past `L` and past the buffer, and a declared length `0` below the
  header size is accepted as the empty bitmap.
-/
import NovaDb.Slots.RunVec

namespace NovaDb

open Bitset

variable {size : Nat}

/-! ## Fixed-width integers -/

/-- `CopyUint(&buf, element)` for a `T` of `n` bytes: the bytes of `element`, most
significant first. -/
def copyUint (n element : Nat) : List UInt8 :=
  (List.range n).map fun i => ((element >>> ((n - i - 1) * 8)) &&& 0xff).toUInt8

/-- Modelled from the spec: `varint.h`, which declares `int32Decode`, is not in the
source; this is the big-endian `uint32_t` reader at `str + offset` that inverts
`CopyUint`. Bytes past the buffer read as `0`, as the terminator of `c_str()` does. -/
def int32Decode (str : List UInt8) (offset : Nat) : Nat :=
  (str.getD offset 0).toNat * 16777216 + (str.getD (offset + 1) 0).toNat * 65536 +
    (str.getD (offset + 2) 0).toNat * 256 + (str.getD (offset + 3) 0).toNat

/-- Modelled from the spec: `varint.h`, which declares `int16Decode`, is not in the
source; this is the big-endian `uint16_t` reader at `str + offset` that inverts
`CopyUint`. -/
def int16Decode (str : List UInt8) (offset : Nat) : UInt16 :=
  ((str.getD offset 0).toNat * 256 + (str.getD (offset + 1) 0).toNat).toUInt16

/-- A byte of `CopyUint` as a number. -/
theorem toNat_byte (x k : Nat) : ((x >>> k) &&& 0xff).toUInt8.toNat = x / 2 ^ k % 256 := by
  have h : (x >>> k) &&& 0xff = x / 2 ^ k % 256 := by
    rw [Nat.shiftRight_eq_div_pow]; exact Nat.and_pow_two_sub_one_eq_mod _ 8
  rw [h, Nat.toUInt8, UInt8.toNat_ofNat_of_lt (Nat.mod_lt _ (by decide))]

theorem int32Decode_copyUint (e : Nat) (pre rest : List UInt8) (he : e < 2 ^ 32) :
    int32Decode (pre ++ copyUint 4 e ++ rest) pre.length = e := by
  simp only [int32Decode, copyUint, List.range_succ, List.range_zero, List.map, List.nil_append,
    List.singleton_append, List.cons_append, List.append_assoc]
  simp only [List.getD_eq_getElem?_getD, List.getElem?_append_right (Nat.le_add_right _ _),
    List.getElem?_append_right (le_refl _), Nat.sub_self, Nat.add_sub_cancel_left]
  simp only [List.getElem?_cons_zero, List.getElem?_cons_succ, Option.getD_some, toNat_byte]
  omega

theorem int16Decode_copyUint (x : UInt16) (pre rest : List UInt8) :
    int16Decode (pre ++ copyUint 2 x.toNat ++ rest) pre.length = x := by
  simp only [int16Decode, copyUint, List.range_succ, List.range_zero, List.map, List.nil_append,
    List.singleton_append, List.cons_append, List.append_assoc]
  simp only [List.getD_eq_getElem?_getD, List.getElem?_append_right (Nat.le_add_right _ _),
    List.getElem?_append_right (le_refl _), Nat.sub_self, Nat.add_sub_cancel_left]
  simp only [List.getElem?_cons_zero, List.getElem?_cons_succ, Option.getD_some, toNat_byte]
  have hx := x.toNat_lt_size
  have : x.toNat / 2 ^ 8 % 256 * 256 + x.toNat / 2 ^ 0 % 256 = x.toNat := by
    simp only [UInt16.size] at hx; omega
  rw [this]
  exact UInt16.toNat.inj (UInt16.toNat_ofNat_of_lt hx)

/-! ## The codec -/

/-- `bitsetEncode(bitmap)`: the `uint32_t` length `encsize`, then the run-pair vector. -/
def bitsetEncode (b : Bitset size) : List UInt8 :=
  let vec := bitsetEncodeVec b
  let encsize := (4 + 2 * vec.length) % 2 ^ 32
  copyUint 4 encsize ++ vec.flatMap fun v => copyUint 2 v.toNat

/-- `bitsetEncodeSize(bitmap)`: the size of the encoding, as a `uint32_t`. -/
def bitsetEncodeSize (b : Bitset size) : Nat := (4 + (bitsetEncodeVec b).length * 2) % 2 ^ 32

/-- The offsets at which the loop `while (offset < decodeSize)` of `bitsetDecode` calls
`int16Decode`, from `offset` on. -/
def payloadOffsets (decodeSize offset : Nat) : List Nat :=
  if offset < decodeSize then offset :: payloadOffsets decodeSize (offset + 2) else []
termination_by decodeSize - offset

/-- `bitsetDecode<size>(str, max_size)`. -/
def bitsetDecode (size : Nat) (str : List UInt8) (max_size : Nat) : Except DecodeError (Bitset size) :=
  if max_size < 4 then .error (.errDecode "bitsetDecode too small")
  else
    let decodeSize := int32Decode str 0
    if max_size < decodeSize then .error (.errDecode "bitsetDecode size too small")
    else bitsetDecodeVec size ((payloadOffsets decodeSize 4).map (int16Decode str))

/-- `bitsetDecode<size>(str)` on a `std::string`: `bitsetDecode(str.c_str(), str.size())`. -/
def bitsetDecodeString (size : Nat) (str : List UInt8) : Except DecodeError (Bitset size) :=
  bitsetDecode size str str.length

/-- The byte offsets `bitsetDecode(str, max_size)` reads: the length header, then the two
bytes of each `int16Decode`. -/
def bitsetDecodeReads (str : List UInt8) (max_size : Nat) : List Nat :=
  if max_size < 4 then []
  else
    let decodeSize := int32Decode str 0
    if max_size < decodeSize then [0, 1, 2, 3]
    else [0, 1, 2, 3] ++ (payloadOffsets decodeSize 4).flatMap fun o => [o, o + 1]

/-! ## Round trip -/

/-- There are no more runs than slots. -/
theorem length_runsFrom_le (b : Bitset size) (idx : Nat) :
    (runsFrom b idx).length ≤ size - idx := by
  induction idx using runsFrom.induct b with
  | case1 idx hlt h ih =>
    rw [runsFrom_of_test b hlt h, List.length_cons]
    have := runLength_pos b h
    have := add_runLength_le b hlt.le
    omega
  | case2 idx hlt h ih => rw [runsFrom_of_not_test b hlt h]; omega
  | case3 idx h => simp [runsFrom_of_le b h]

/-- The entries after a prefix, as bytes. -/
theorem length_flatMap_copyUint (v : List UInt16) :
    (v.flatMap fun x => copyUint 2 x.toNat).length = 2 * v.length := by
  induction v with
  | nil => rfl
  | cons x v ih => simp only [List.flatMap_cons, List.length_append, ih]; simp [copyUint]; omega

/-- The payload loop reads back every entry written after a prefix. -/
theorem map_int16Decode_payloadOffsets (t : List UInt8) :
    ∀ (v : List UInt16) (pre : List UInt8),
      (payloadOffsets (pre.length + 2 * v.length) pre.length).map
        (int16Decode (pre ++ ((v.flatMap fun x => copyUint 2 x.toNat) ++ t))) = v
  | [], pre => by rw [payloadOffsets, if_neg (by simp)]; rfl
  | x :: v, pre => by
    have hlen : (pre ++ copyUint 2 x.toNat).length = pre.length + 2 := by simp [copyUint]
    have ih := map_int16Decode_payloadOffsets t v (pre ++ copyUint 2 x.toNat)
    rw [hlen] at ih
    rw [payloadOffsets, if_pos (by simp), List.map_cons, List.flatMap_cons, List.append_assoc,
      ← List.append_assoc pre, int16Decode_copyUint, List.length_cons,
      show pre.length + 2 * (v.length + 1) = pre.length + 2 + 2 * v.length by omega, ih]

/-- **Binary round trip.** Below `65536` slots, `bitsetDecode` of an encoded bitmap
followed by any bytes returns the bitmap. -/
theorem bitsetDecodeString_bitsetEncode (b : Bitset size) (t : List UInt8)
    (hsize : size ≤ 65535) : bitsetDecodeString size (bitsetEncode b ++ t) = .ok b := by
  have hvec : (bitsetEncodeVec b).length ≤ 2 * size := by
    rw [bitsetEncodeVec, bitsetEncodeVecFrom_eq, length_runsToVec]
    have := length_runsFrom_le b 0
    omega
  generalize hv : bitsetEncodeVec b = vec at hvec
  have henc : (4 + 2 * vec.length) % 2 ^ 32 = 4 + 2 * vec.length := Nat.mod_eq_of_lt (by omega)
  have hbytes : bitsetEncode b ++ t =
      copyUint 4 (4 + 2 * vec.length) ++ ((vec.flatMap fun v => copyUint 2 v.toNat) ++ t) := by
    simp only [bitsetEncode, hv, henc, List.append_assoc]
  have hhead : int32Decode (bitsetEncode b ++ t) 0 = 4 + 2 * vec.length := by
    rw [hbytes, ← List.nil_append (copyUint 4 _), ← List.append_assoc]
    exact int32Decode_copyUint _ [] _ (by omega)
  have hpay : (payloadOffsets (4 + 2 * vec.length) 4).map (int16Decode (bitsetEncode b ++ t)) =
      vec := by
    rw [hbytes]
    exact map_int16Decode_payloadOffsets t vec (copyUint 4 _)
  have hlen : (bitsetEncode b ++ t).length = 4 + 2 * vec.length + t.length := by
    rw [hbytes, List.length_append, List.length_append, length_flatMap_copyUint]
    simp [copyUint]
    omega
  rw [bitsetDecodeString, bitsetDecode, if_neg (by omega)]
  simp only [hhead, hlen, hpay]
  rw [if_neg (by omega), ← hv]
  exact bitsetDecodeVec_bitsetEncodeVec b hsize

/-- Slot `0`, slots `100` to `102` and the last slot, `16383`, followed by two more bytes. -/
theorem bitsetDecodeString_bitsetEncode_runs :
    CLUSTER_SLOTS ≤ 65535 ∧
      bitsetDecodeString CLUSTER_SLOTS
        (bitsetEncode (ofRuns [(0, 1), (100, 3), (16383, 1)] : Bitset CLUSTER_SLOTS) ++ [7, 7]) =
        .ok (ofRuns [(0, 1), (100, 3), (16383, 1)]) :=
  ⟨by decide, bitsetDecodeString_bitsetEncode _ _ (by decide)⟩

/-- A bitmap has at most one run in two slots from `idx` on, one fewer half slot when the
slot at `idx` is clear: every run but the last is followed by a clear slot. -/
theorem length_runsFrom_le_half (b : Bitset size) (idx : Nat) :
    (runsFrom b idx).length ≤ (size - idx + (b.test idx).toNat) / 2 := by
  induction idx using runsFrom.induct b with
  | case1 idx hlt h ih =>
    have hk := runLength_pos b h
    have hle := add_runLength_le b hlt.le
    rw [runsFrom_of_test b hlt h, List.length_cons, test_add_runLength] at *
    simp only [h, Bool.toNat_true, Bool.toNat_false, Nat.add_zero] at ih ⊢
    omega
  | case2 idx hlt h ih =>
    rw [runsFrom_of_not_test b hlt h]
    simp only [Bool.not_eq_true] at h
    simp only [h, Bool.toNat_false, Nat.add_zero]
    have := Bool.toNat_le (b.test (idx + 1))
    omega
  | case3 idx h => simp [runsFrom_of_le b h]

/-- **The size of an encoding.** Below `65536` slots, `bitsetEncodeSize` is the number of
bytes `bitsetEncode` writes: the `4` of the header and `4` for each maximal run of set
slots, of which there are at most half the slots, rounded up. -/
theorem bitsetEncodeSize_eq_length (b : Bitset size) (hsize : size ≤ 65535) :
    bitsetEncodeSize b = (bitsetEncode b).length ∧
      bitsetEncodeSize b = 4 + 4 * (runsFrom b 0).length ∧
      bitsetEncodeSize b ≤ 4 + 4 * ((size + 1) / 2) := by
  have hruns := length_runsFrom_le_half b 0
  have ht := Bool.toNat_le (b.test 0)
  have hvec : (bitsetEncodeVec b).length = 2 * (runsFrom b 0).length := by
    rw [bitsetEncodeVec, bitsetEncodeVecFrom_eq, length_runsToVec]
  have hsz : bitsetEncodeSize b = 4 + 4 * (runsFrom b 0).length := by
    rw [bitsetEncodeSize, hvec, Nat.mod_eq_of_lt (by omega)]; omega
  refine ⟨?_, hsz, by omega⟩
  rw [hsz, bitsetEncode, List.length_append, length_flatMap_copyUint, hvec]
  simp only [copyUint, List.length_map, List.length_range]
  omega

/-- The bitmap of slot `0`, slots `100` to `102` and slot `16383`. -/
theorem bitsetEncodeSize_eq_length_runs :
    CLUSTER_SLOTS ≤ 65535 ∧
      bitsetEncodeSize (ofRuns [(0, 1), (100, 3), (16383, 1)] : Bitset CLUSTER_SLOTS) =
          (bitsetEncode (ofRuns [(0, 1), (100, 3), (16383, 1)] : Bitset CLUSTER_SLOTS)).length ∧
        bitsetEncodeSize (ofRuns [(0, 1), (100, 3), (16383, 1)] : Bitset CLUSTER_SLOTS) =
          4 + 4 * (runsFrom (ofRuns [(0, 1), (100, 3), (16383, 1)] : Bitset CLUSTER_SLOTS) 0).length ∧
        bitsetEncodeSize (ofRuns [(0, 1), (100, 3), (16383, 1)] : Bitset CLUSTER_SLOTS) ≤
          4 + 4 * ((CLUSTER_SLOTS + 1) / 2) :=
  ⟨by decide, bitsetEncodeSize_eq_length _ (by decide)⟩

/-! ## Malformed lengths -/

/-- **Reads past the declared length.** A buffer of 5 bytes declaring `L = 5` makes the
payload loop read byte `5`, past `L` and past the buffer; a declared `L = 0`, below the
header size, decodes as the empty bitmap. -/
theorem bitsetDecode_odd_payload_and_short_header :
    5 ∈ bitsetDecodeReads [0, 0, 0, 5, 0] 5 ∧
      bitsetDecode CLUSTER_SLOTS [0, 0, 0, 0] 4 = .ok empty := by
  have hodd : payloadOffsets 5 4 = [4] := by
    rw [payloadOffsets, if_pos (by decide), payloadOffsets, if_neg (by decide)]
  have hzero : payloadOffsets 0 4 = [] := by rw [payloadOffsets, if_neg (by decide)]
  constructor
  · rw [bitsetDecodeReads]
    simp only [show int32Decode [0, 0, 0, 5, 0] 0 = 5 from rfl, hodd]
    decide
  · rw [bitsetDecode]
    simp only [show int32Decode [0, 0, 0, 0] 0 = 0 from rfl, hzero]
    rfl

end NovaDb
