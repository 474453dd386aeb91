/-
# Slot bitmaps and their runs

`std::bitset<size>` as the slot codecs of `utils/string.h` use it, the inner loop
`while (idx < bitmap.size() && bitmap.test(idx))` that both encoders share
(`runLength`), and the runs of set bits that the encoders walk (`runsFrom`).

`runsFrom` is our statement of what the encoders emit: the maximal runs of set bits, in
order, each a `(start, length)` pair. Its three facts are what every round trip needs:

* `mem_runsFrom` : each run lies in the bitmap's range and is non-empty;
* `pairwise_runsFrom` : runs come in order, with a gap between two runs;
* `ofRuns_runsFrom_zero` : the runs cover exactly the set bits.
-/
import Mathlib.Data.Fintype.Basic
import Mathlib.Data.List.Pairwise

namespace NovaDb

/-- How a decoder of `string.h` ends when it does not return a bitmap. -/
inductive DecodeError where
  /-- A returned status `{ErrorCodes::ERR_DECODE, msg}`. -/
  | errDecode (msg : String)
  /-- `std::bitset::set` threw `std::out_of_range` at this position. -/
  | outOfRange (pos : Nat)
  /-- A subscript or an `erase` past the end of a `std::vector`: undefined behaviour. -/
  | pastEnd (idx : Nat)
  deriving DecidableEq, Repr

/-- `CLUSTER_SLOTS`, the number of hash slots. -/
def CLUSTER_SLOTS : Nat := 16384

/-- `std::bitset<size>`: one bit per slot below `size`. -/
def Bitset (size : Nat) := Fin size → Bool

namespace Bitset

variable {size : Nat}

instance : DecidableEq (Bitset size) := inferInstanceAs (DecidableEq (Fin size → Bool))

/-- A default-constructed `std::bitset<size>`: no bit set. -/
def empty : Bitset size := fun _ => false

/-- `bitmap.test(idx)`; the codecs only call it below `size`. -/
def test (b : Bitset size) (i : Nat) : Bool :=
  if h : i < size then b ⟨i, h⟩ else false

/-- `bitmap.set(pos)`, which throws `std::out_of_range` from `size` on. -/
def set (b : Bitset size) (pos : Nat) : Except DecodeError (Bitset size) :=
  if h : pos < size then .ok (Function.update b ⟨pos, h⟩ true) else .error (.outOfRange pos)

/-- The bitmap with the slots of the runs `(start, length)` set besides those of `b`. -/
def orRuns (b : Bitset size) (rs : List (Nat × Nat)) : Bitset size :=
  fun k => b k || rs.any fun r => decide (r.1 ≤ k.val ∧ k.val < r.1 + r.2)

/-- The bitmap whose set slots are those of the runs. -/
def ofRuns (rs : List (Nat × Nat)) : Bitset size := empty.orRuns rs

/-! ## Bits -/

theorem test_eq_false_of_le (b : Bitset size) {i : Nat} (h : size ≤ i) : b.test i = false := by
  simp [test, Nat.not_lt.mpr h]

@[simp] theorem test_empty (i : Nat) : (empty : Bitset size).test i = false := by
  simp [test, empty]

/-- Two bitmaps that test alike are equal. -/
theorem ext_test {b b' : Bitset size} (h : ∀ i, b.test i = b'.test i) : b = b' := by
  funext k
  simpa [test, k.isLt] using h k.val

theorem test_orRuns (b : Bitset size) (rs : List (Nat × Nat)) (i : Nat) :
    (b.orRuns rs).test i = true ↔
      b.test i = true ∨ (i < size ∧ ∃ r ∈ rs, r.1 ≤ i ∧ i < r.1 + r.2) := by
  by_cases h : i < size <;> simp [test, orRuns, h]

@[simp] theorem orRuns_nil (b : Bitset size) : b.orRuns [] = b := by
  funext k; simp [orRuns]

/-- Or-ing runs one after the other. -/
theorem orRuns_cons (b : Bitset size) (r : Nat × Nat) (rs : List (Nat × Nat)) :
    b.orRuns (r :: rs) = (b.orRuns [r]).orRuns rs := by
  funext k; simp [orRuns, Bool.or_assoc]

/-- `set` inside the range is or-ing a one-slot run. -/
theorem set_of_lt (b : Bitset size) {pos : Nat} (h : pos < size) :
    b.set pos = .ok (b.orRuns [(pos, 1)]) := by
  simp only [set, h, dif_pos]
  congr 1
  funext k
  by_cases hk : k = ⟨pos, h⟩
  · subst hk; simp [orRuns]
  · have : k.val ≠ pos := fun e => hk (Fin.ext e)
    simp [orRuns, Function.update_noteq hk]
    omega

/-- Or-ing an empty run changes nothing. -/
theorem orRuns_zero (b : Bitset size) (j : Nat) : b.orRuns [(j, 0)] = b := by
  funext k; simp [orRuns]

/-- A run of `n + 1` slots from `j` is slot `j` then `n` slots from `j + 1`. -/
theorem orRuns_succ (b : Bitset size) (j n : Nat) :
    (b.orRuns [(j, 1)]).orRuns [(j + 1, n)] = b.orRuns [(j, n + 1)] := by
  funext k
  simp only [orRuns, List.any_cons, List.any_nil, Bool.or_false, Bool.or_assoc]
  congr 1
  rw [Bool.eq_iff_iff]
  simp only [Bool.or_eq_true, decide_eq_true_eq]
  omega

/-! ## The inner run loop -/

/-- The inner loop `while (idx < bitmap.size() && bitmap.test(idx)) idx++` of the
encoders: how many times it runs from `idx`. -/
def runLength (b : Bitset size) (idx : Nat) : Nat :=
  if idx < size ∧ b.test idx then runLength b (idx + 1) + 1 else 0
termination_by size - idx

variable (b : Bitset size)

theorem runLength_of_test {idx : Nat} (h : b.test idx = true) :
    runLength b idx = runLength b (idx + 1) + 1 := by
  have hlt : idx < size := Nat.not_le.mp fun hle => by simp [b.test_eq_false_of_le hle] at h
  rw [runLength, if_pos ⟨hlt, h⟩]

theorem runLength_of_not_test {idx : Nat} (h : b.test idx = false) : runLength b idx = 0 := by
  rw [runLength, if_neg (by simp [h])]

/-- Every slot the loop steps over is set. -/
theorem test_of_lt_runLength {idx j : Nat} (hj : idx ≤ j) (hlt : j < idx + runLength b idx) :
    b.test j = true := by
  induction idx using runLength.induct b with
  | case1 idx hc ih =>
    rw [runLength_of_test b hc.2] at hlt
    rcases Nat.eq_or_lt_of_le hj with rfl | hj'
    · exact hc.2
    · exact ih hj' (by omega)
  | case2 idx hc => rw [runLength, if_neg hc] at hlt; omega

/-- The loop stops on a clear slot (or past the end). -/
theorem test_add_runLength (idx : Nat) : b.test (idx + runLength b idx) = false := by
  induction idx using runLength.induct b with
  | case1 idx hc ih => rw [runLength_of_test b hc.2, ← ih]; congr 1; omega
  | case2 idx hc =>
    rw [runLength, if_neg hc, Nat.add_zero]
    by_cases h : idx < size
    · simpa [h] using hc
    · exact b.test_eq_false_of_le (Nat.not_lt.mp h)

/-- The loop never leaves the bitmap. -/
theorem add_runLength_le {idx : Nat} (h : idx ≤ size) : idx + runLength b idx ≤ size := by
  induction idx using runLength.induct b with
  | case1 idx hc ih => rw [runLength_of_test b hc.2]; have := ih hc.1; omega
  | case2 idx hc => rw [runLength, if_neg hc]; omega

theorem runLength_pos {idx : Nat} (h : b.test idx = true) : 0 < runLength b idx := by
  rw [runLength_of_test b h]; omega

/-! ## Runs -/

/-- The maximal runs of set bits from `idx` on, as `(start, length)` pairs in order. -/
def runsFrom (idx : Nat) : List (Nat × Nat) :=
  if idx < size then
    if h : b.test idx then (idx, runLength b idx) :: runsFrom (idx + runLength b idx)
    else runsFrom (idx + 1)
  else []
termination_by size - idx
decreasing_by
  all_goals simp_wf
  · have := runLength_pos b h; omega
  · omega

theorem runsFrom_of_test {idx : Nat} (hlt : idx < size) (h : b.test idx = true) :
    runsFrom b idx = (idx, runLength b idx) :: runsFrom b (idx + runLength b idx) := by
  rw [runsFrom, if_pos hlt, dif_pos h]

theorem runsFrom_of_not_test {idx : Nat} (hlt : idx < size) (h : ¬ b.test idx = true) :
    runsFrom b idx = runsFrom b (idx + 1) := by
  rw [runsFrom, if_pos hlt, dif_neg h]

theorem runsFrom_of_le {idx : Nat} (h : ¬ idx < size) : runsFrom b idx = [] := by
  rw [runsFrom, if_neg h]

/-- A run starts on a set slot at or after `idx`, is non-empty and ends inside the
bitmap. -/
theorem mem_runsFrom {idx : Nat} {r : Nat × Nat} (hr : r ∈ runsFrom b idx) :
    idx ≤ r.1 ∧ b.test r.1 = true ∧ 0 < r.2 ∧ r.1 + r.2 ≤ size := by
  induction idx using runsFrom.induct b with
  | case1 idx hlt h ih =>
    rw [runsFrom_of_test b hlt h, List.mem_cons] at hr
    rcases hr with rfl | hr
    · exact ⟨le_rfl, h, runLength_pos b h, add_runLength_le b hlt.le⟩
    · have := ih hr; exact ⟨by omega, this.2⟩
  | case2 idx hlt h ih =>
    rw [runsFrom_of_not_test b hlt h] at hr
    have := ih hr; exact ⟨by omega, this.2⟩
  | case3 idx h => simp [runsFrom_of_le b h] at hr

/-- Runs come in order, each ending strictly before the next starts. -/
theorem pairwise_runsFrom (idx : Nat) :
    (runsFrom b idx).Pairwise fun r s => r.1 + r.2 < s.1 := by
  induction idx using runsFrom.induct b with
  | case1 idx hlt h ih =>
    rw [runsFrom_of_test b hlt h, List.pairwise_cons]
    refine ⟨fun s hs => ?_, ih⟩
    obtain ⟨hstart, hset, -⟩ := mem_runsFrom b hs
    rcases Nat.eq_or_lt_of_le hstart with heq | hgt
    · rw [← heq, test_add_runLength] at hset
      exact absurd hset Bool.false_ne_true
    · exact hgt
  | case2 idx hlt h ih => rwa [runsFrom_of_not_test b hlt h]
  | case3 idx h => simp [runsFrom_of_le b h]

/-- The runs from `idx` cover exactly the set slots from `idx` on. -/
theorem test_ofRuns_runsFrom (idx i : Nat) :
    (ofRuns (runsFrom b idx) : Bitset size).test i = true ↔ idx ≤ i ∧ b.test i = true := by
  rw [ofRuns, test_orRuns, test_empty]
  simp only [Bool.false_eq_true, false_or]
  induction idx using runsFrom.induct b with
  | case1 idx hlt h ih =>
    rw [runsFrom_of_test b hlt h]
    simp only [List.mem_cons, exists_eq_or_imp]
    constructor
    · rintro ⟨hi, hrun | hrest⟩
      · exact ⟨hrun.1, test_of_lt_runLength b hrun.1 hrun.2⟩
      · have := ih.mp ⟨hi, hrest⟩; exact ⟨by omega, this.2⟩
    · rintro ⟨hi, ht⟩
      have hlt' : i < size := Nat.not_le.mp fun hle => by simp [b.test_eq_false_of_le hle] at ht
      by_cases hin : i < idx + runLength b idx
      · exact ⟨hlt', .inl ⟨hi, hin⟩⟩
      · exact ⟨hlt', .inr (ih.mpr ⟨by omega, ht⟩).2⟩
  | case2 idx hlt h ih =>
    rw [runsFrom_of_not_test b hlt h, ih]
    constructor
    · rintro ⟨hi, ht⟩; exact ⟨by omega, ht⟩
    · rintro ⟨hi, ht⟩
      rcases Nat.eq_or_lt_of_le hi with rfl | hi'
      · exact absurd ht h
      · exact ⟨hi', ht⟩
  | case3 idx h =>
    simp only [runsFrom_of_le b h, List.not_mem_nil, false_and, exists_false, and_false,
      false_iff, not_and]
    intro hi
    simp [b.test_eq_false_of_le (by omega : size ≤ i)]

/-- **The runs of a bitmap rebuild it.** -/
theorem ofRuns_runsFrom_zero : (ofRuns (runsFrom b 0) : Bitset size) = b :=
  ext_test fun i => by
    have := test_ofRuns_runsFrom b 0 i
    cases h : b.test i <;> simp_all

end Bitset

end NovaDb
