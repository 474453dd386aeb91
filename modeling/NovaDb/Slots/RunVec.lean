/-
# The run-pair vector of a slot bitmap

`bitsetEncodeVec` and `bitsetDecodeVec` of `utils/string.h`: a bitmap travels as a
`std::vector<uint16_t>` of pairs `(start, runLength)`.

* `bitsetDecodeVec_eq_ok_iff` : the decoder accepts exactly the even-length vectors whose
  runs end inside the bitmap and each start above every slot an earlier run set, and then
  returns the union of the runs; empty runs set nothing and constrain nothing;
* `bitsetDecodeVec_bitsetEncodeVec` : below `65536` slots, decoding the encoder's vector
  gives the bitmap back.
-/
import NovaDb.Slots.Bitset

namespace NovaDb

open Bitset

variable {size : Nat}

/-! ## Encoding -/

/-- The outer loop of `bitsetEncodeVec` from `idx`: each run pushes its start
`static_cast<uint16_t>(idx)` and its `uint16_t` counter `pageLen`. -/
def bitsetEncodeVecFrom (b : Bitset size) (idx : Nat) : List UInt16 :=
  if idx < size then
    if h : b.test idx then
      idx.toUInt16 :: (runLength b idx).toUInt16 :: bitsetEncodeVecFrom b (idx + runLength b idx)
    else bitsetEncodeVecFrom b (idx + 1)
  else []
termination_by size - idx
decreasing_by
  all_goals simp_wf
  · have := runLength_pos b h; omega
  · omega

/-- `bitsetEncodeVec(bitmap)`. -/
def bitsetEncodeVec (b : Bitset size) : List UInt16 := bitsetEncodeVecFrom b 0

/-- Runs written as `uint16_t` pairs. -/
def runsToVec (rs : List (Nat × Nat)) : List UInt16 :=
  rs.flatMap fun r => [r.1.toUInt16, r.2.toUInt16]

/-- The encoder writes the runs of the bitmap. -/
theorem bitsetEncodeVecFrom_eq (b : Bitset size) (idx : Nat) :
    bitsetEncodeVecFrom b idx = runsToVec (runsFrom b idx) := by
  induction idx using runsFrom.induct b with
  | case1 idx hlt h ih =>
    rw [bitsetEncodeVecFrom, if_pos hlt, dif_pos h, ih, runsFrom_of_test b hlt h]; rfl
  | case2 idx hlt h ih => rw [bitsetEncodeVecFrom, if_pos hlt, dif_neg h, ih, runsFrom_of_not_test b hlt h]
  | case3 idx h => rw [bitsetEncodeVecFrom, if_neg h, runsFrom_of_le b h]; rfl

/-! ## Decoding -/

/-- The loop `for (size_t j = pos; j < len; j++) { bitmap.set(j); last_pos = j; }`, over
the `n` slots from `j`. -/
def setRun (b : Bitset size) (lastPos : Int) (j : Nat) : Nat → Except DecodeError (Bitset size × Int)
  | 0 => .ok (b, lastPos)
  | n + 1 => do
    let b' ← b.set j
    setRun b' j (j + 1) n

/-- The loop `while (offset < vec.size())` of `bitsetDecodeVec`, on the entries from
`offset` on; `lastPos` is `last_pos`. -/
def bitsetDecodeVecLoop (b : Bitset size) (lastPos : Int) :
    List UInt16 → Except DecodeError (Bitset size)
  | [] => .ok b
  | [_] => .error (.pastEnd 1)
  | pos :: pageLength :: rest =>
    if (pos.toNat : Int) ≤ lastPos then .error (.errDecode "bitset error input")
    else
      let len := pos.toNat + pageLength.toNat
      if len > size then .error (.errDecode "bitset error length")
      else do
        let (b', lastPos') ← setRun b lastPos pos.toNat (len - pos.toNat)
        bitsetDecodeVecLoop b' lastPos' rest

/-- `bitsetDecodeVec<size>(vec)`. -/
def bitsetDecodeVec (size : Nat) (vec : List UInt16) : Except DecodeError (Bitset size) :=
  if vec.length % 2 ≠ 0 then .error (.errDecode "bitsetIntDecode bitset error length")
  else bitsetDecodeVecLoop .empty (-1) vec

/-- The pairs `(vec[offset], vec[offset + 1])` the decoder reads, as naturals. -/
def pairsOf : List UInt16 → List (Nat × Nat)
  | p :: l :: rest => (p.toNat, l.toNat) :: pairsOf rest
  | _ => []

/-- Every slot the run `q` sets lies below the start of the run `r`. -/
def SetsBelow (q r : Nat × Nat) : Prop := ∀ j, q.1 ≤ j → j < q.1 + q.2 → j < r.1

theorem setsBelow_iff (q r : Nat × Nat) : SetsBelow q r ↔ q.2 = 0 ∨ q.1 + q.2 ≤ r.1 := by
  constructor
  · intro h
    by_contra hc
    have := h (q.1 + q.2 - 1) (by omega) (by omega)
    omega
  · rintro h j hj hj'; omega

/-- Inside the bitmap the set loop ors the run in, and leaves `last_pos` on its last
slot. -/
theorem setRun_eq (b : Bitset size) (lastPos : Int) (j n : Nat) (h : j + n ≤ size) :
    setRun b lastPos j n =
      .ok (b.orRuns [(j, n)], if n = 0 then lastPos else ((j + n - 1 : Nat) : Int)) := by
  induction n generalizing b lastPos j with
  | zero => simp [setRun, orRuns_zero]
  | succ n ih =>
    simp only [setRun, set_of_lt b (by omega : j < size)]
    show setRun _ _ _ _ = _
    rw [ih _ _ _ (by omega), orRuns_succ]
    congr 2
    split <;> simp_all

/-- From `last_pos` below the start of a run, the next `last_pos` lies below the start of
a later run iff the old one does and the run sets nothing at or above that start. -/
theorem lastPos_lt_iff {lastPos : Int} {p l : Nat} (hp : lastPos < p) (r : Nat × Nat) :
    (if l = 0 then lastPos else ((p + l - 1 : Nat) : Int)) < r.1 ↔
      lastPos < r.1 ∧ SetsBelow (p, l) r := by
  rw [setsBelow_iff]
  split <;> simp_all
  omega

/-- The decoding loop from `last_pos`: it accepts exactly the even tails whose runs start
above `last_pos`, end inside the bitmap and start above every slot an earlier run set. -/
theorem bitsetDecodeVecLoop_eq_ok_iff :
    ∀ (b : Bitset size) (lastPos : Int) (v : List UInt16) (B : Bitset size),
      bitsetDecodeVecLoop b lastPos v = .ok B ↔
        v.length % 2 = 0 ∧ (∀ r ∈ pairsOf v, lastPos < r.1 ∧ r.1 + r.2 ≤ size) ∧
          (pairsOf v).Pairwise SetsBelow ∧ B = b.orRuns (pairsOf v)
  | b, lastPos, [], B => by
    simp [bitsetDecodeVecLoop, pairsOf, eq_comm]
  | b, lastPos, [_], B => by
    simp [bitsetDecodeVecLoop]
  | b, lastPos, p :: l :: rest, B => by
    simp only [bitsetDecodeVecLoop, pairsOf, List.length_cons, List.mem_cons,
      forall_eq_or_imp, List.pairwise_cons]
    by_cases h1 : (p.toNat : Int) ≤ lastPos
    · simp only [h1, if_true, reduceCtorEq, false_iff]
      omega
    by_cases h2 : p.toNat + l.toNat > size
    · simp only [h1, h2, if_true, if_false, reduceCtorEq, false_iff]
      omega
    have hlp : lastPos < p.toNat := by omega
    simp only [h1, h2, if_false, Nat.add_sub_cancel_left]
    rw [setRun_eq b lastPos p.toNat l.toNat (by omega)]
    show bitsetDecodeVecLoop _ _ rest = _ ↔ _
    have hlen : (rest.length + 1 + 1) % 2 = rest.length % 2 := by omega
    rw [bitsetDecodeVecLoop_eq_ok_iff, orRuns_cons b (p.toNat, l.toNat) (pairsOf rest), hlen]
    simp only [lastPos_lt_iff hlp, forall_and]
    constructor
    · rintro ⟨he, ⟨⟨hl, hs⟩, hb⟩, hpw, rfl⟩
      exact ⟨he, ⟨⟨hlp, by omega⟩, hl, hb⟩, ⟨hs, hpw⟩, rfl⟩
    · rintro ⟨he, ⟨-, hl, hb⟩, ⟨hs, hpw⟩, rfl⟩
      exact ⟨he, ⟨⟨hl, hs⟩, hb⟩, hpw, rfl⟩

/-- **What `bitsetDecodeVec` accepts.** It returns `B` iff the vector has even length,
every run `(p, l)` ends by `size`, every run starts above each slot an earlier run set,
and `B` is the union of the runs. -/
theorem bitsetDecodeVec_eq_ok_iff (v : List UInt16) (B : Bitset size) :
    bitsetDecodeVec size v = .ok B ↔
      v.length % 2 = 0 ∧ (∀ r ∈ pairsOf v, r.1 + r.2 ≤ size) ∧
        (pairsOf v).Pairwise SetsBelow ∧ B = ofRuns (pairsOf v) := by
  rw [bitsetDecodeVec]
  split
  · simp_all
  · have hneg : (∀ r ∈ pairsOf v, (-1 : Int) < r.1 ∧ r.1 + r.2 ≤ size) ↔
        ∀ r ∈ pairsOf v, r.1 + r.2 ≤ size :=
      ⟨fun h r hr => (h r hr).2, fun h r hr => ⟨by omega, h r hr⟩⟩
    rw [bitsetDecodeVecLoop_eq_ok_iff, ofRuns, hneg]

/-! ## Round trip -/

/-- Reading back pairs of `uint16_t` values that fit. -/
theorem pairsOf_runsToVec (rs : List (Nat × Nat)) (h : ∀ r ∈ rs, r.1 < 65536 ∧ r.2 < 65536) :
    pairsOf (runsToVec rs) = rs := by
  induction rs with
  | nil => rfl
  | cons r rs ih =>
    obtain ⟨h1, h2⟩ := h r (List.mem_cons_self r rs)
    simp only [runsToVec, List.flatMap_cons, List.cons_append, List.nil_append] at ih ⊢
    rw [pairsOf, ih fun r' hr' => h r' (List.mem_cons_of_mem r hr')]
    simp [Nat.toUInt16, UInt16.toNat_ofNat_of_lt h1, UInt16.toNat_ofNat_of_lt h2]

theorem length_runsToVec (rs : List (Nat × Nat)) : (runsToVec rs).length = 2 * rs.length := by
  induction rs with
  | nil => rfl
  | cons r rs ih => simp [runsToVec] at ih ⊢; omega

/-- Below `65536` slots, decoding the encoder's vector gives the bitmap back. -/
theorem bitsetDecodeVec_bitsetEncodeVec (b : Bitset size) (hsize : size ≤ 65535) :
    bitsetDecodeVec size (bitsetEncodeVec b) = .ok b := by
  have hmem := fun r (hr : r ∈ runsFrom b 0) => mem_runsFrom b hr
  rw [bitsetEncodeVec, bitsetEncodeVecFrom_eq, bitsetDecodeVec_eq_ok_iff,
    pairsOf_runsToVec _ fun r hr => by have := hmem r hr; omega, length_runsToVec,
    ofRuns_runsFrom_zero]
  refine ⟨by omega, fun r hr => (hmem r hr).2.2.2, ?_, rfl⟩
  exact (pairwise_runsFrom b 0).imp fun h => (setsBelow_iff _ _).mpr (.inr h.le)

end NovaDb
