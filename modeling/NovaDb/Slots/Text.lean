/-
# The textual slot-bitmap codec

`bitsetStrEncode` and `bitsetStrDecode` of `utils/string.h`: a bitmap is written as
`" s₁ s₂-s₃ s₄ "`, a space before every token and after every token, a run of one slot
as its number and a longer run as its first and last slot joined by `-`.

* `bitsetStrDecode_bitsetStrEncode` : decoding the text of any bitmap of
  `CLUSTER_SLOTS` slots gives the bitmap back;
* `bitsetStrDecode_malformed` : a single-slot token past the bitmap throws from
  `std::bitset::set`, a range token with no end reads past its split, and the empty text
  erases from an empty vector.
-/
import NovaDb.Slots.Bitset
import Mathlib.Data.List.Basic
import Mathlib.Data.Nat.Digits

namespace NovaDb

open Bitset

variable {size : Nat}

/-! ## Helpers of `string.cpp` -/

/-- Modelled from the spec: `string.cpp`, which defines `stringSplit`, is not in the
source; these are the `delim`-separated fields of `s`, with the empty field before a
leading delimiter kept and none after a final one. The callers split on one character. -/
def stringSplit (s : List Char) (delim : Char) : List (List Char) :=
  let fields := s.splitOn delim
  if fields.getLast? = some [] then fields.dropLast else fields

/-- One decimal digit onto a parsed prefix. -/
def decimalStep (acc : Nat) (c : Char) : Nat := acc * 10 + (c.toNat - '0'.toNat)

/-- Modelled from the spec: `string.cpp`, which defines `stoul`, is not in the source;
this parses a non-empty string of decimal digits whose value fits a `uint64_t`. -/
def stoul (s : List Char) : Option Nat :=
  if s ≠ [] ∧ s.all Char.isDigit then
    let n := s.foldl decimalStep 0
    if n < 2 ^ 64 then some n else none
  else none

/-! ## The codec -/

/-- The loop of `bitsetStrEncode` from `idx`: a run of one slot is written `pos`, a longer
one `pos-(pos + pageLen)`, each followed by a space. -/
def bitsetStrEncodeFrom (b : Bitset size) (idx : Nat) : List Char :=
  if idx < size then
    if b.test idx then
      if idx ≥ size - 1 ∨ b.test (idx + 1) = false then
        Nat.toDigits 10 idx ++ ' ' :: bitsetStrEncodeFrom b (idx + 1)
      else
        Nat.toDigits 10 idx ++ '-' :: Nat.toDigits 10 (idx + runLength b (idx + 1)) ++
          ' ' :: bitsetStrEncodeFrom b (idx + 1 + runLength b (idx + 1))
    else bitsetStrEncodeFrom b (idx + 1)
  else []
termination_by size - idx

/-- `bitsetStrEncode(bitmap)`. -/
def bitsetStrEncode (b : Bitset size) : List Char := ' ' :: bitsetStrEncodeFrom b 0

/-- The loop `for (size_t j = begin; j <= end; j++) bitmap.set(j)`, over `n` slots. -/
def setRange (b : Bitset size) (j : Nat) : Nat → Except DecodeError (Bitset size)
  | 0 => .ok b
  | n + 1 => do
    let b' ← b.set j
    setRange b' (j + 1) n

/-- The body of `for (auto& vs : vec)` in `bitsetStrDecode`, on one token. -/
def bitsetStrDecodeToken (bitmap : Bitset size) (vs : List Char) :
    Except DecodeError (Bitset size) :=
  if '-' ∈ vs then
    let s := stringSplit vs '-'
    match s[0]?, s[1]? with
    | some first, some last =>
      match stoul first, stoul last with
      | some sPtr, some ePtr =>
        if ePtr ≥ size then .error (.errDecode "bitsetStrDecode bitset error length")
        else setRange bitmap sPtr (ePtr + 1 - sPtr)
      | _, _ => .error (.errDecode "error start end ")
    | none, _ => .error (.pastEnd 0)
    | some _, none => .error (.pastEnd 1)
  else
    match stoul vs with
    | some pos => bitmap.set pos
    | none => .error (.errDecode "error start end ")

/-- The loop `for (auto& vs : vec)` of `bitsetStrDecode`. -/
def bitsetStrDecodeLoop (bitmap : Bitset size) : List (List Char) → Except DecodeError (Bitset size)
  | [] => .ok bitmap
  | vs :: rest => do
    let bitmap' ← bitsetStrDecodeToken bitmap vs
    bitsetStrDecodeLoop bitmap' rest

/-- `bitsetStrDecode<size>(bitmapStr)`: split on spaces, `vec.erase(vec.begin())`, then
decode each token. -/
def bitsetStrDecode (size : Nat) (bitmapStr : List Char) : Except DecodeError (Bitset size) :=
  match stringSplit bitmapStr ' ' with
  | [] => .error (.pastEnd 0)
  | _ :: vec => bitsetStrDecodeLoop .empty vec

/-! ## Decimal numbers -/

/-- A decimal digit below ten and its value. -/
theorem digitChar_lt_ten :
    ∀ k < 10, (Nat.digitChar k).isDigit = true ∧ (Nat.digitChar k).toNat - '0'.toNat = k := by
  decide

/-- `Nat.toDigitsCore` writes the decimal digits of `n`, which parse back to `n`, in front
of `ds`. -/
theorem toDigitsCore_ten : ∀ (fuel n : Nat) (ds : List Char), n < fuel →
    ∃ pre, Nat.toDigitsCore 10 fuel n ds = pre ++ ds ∧ pre ≠ [] ∧ pre.all Char.isDigit ∧
      pre.foldl decimalStep 0 = n
  | 0, n, _, h => absurd h (Nat.not_lt_zero n)
  | fuel + 1, n, ds, h => by
    have hd := digitChar_lt_ten (n % 10) (Nat.mod_lt _ (by decide))
    rw [Nat.toDigitsCore]
    split
    · refine ⟨[Nat.digitChar (n % 10)], rfl, List.cons_ne_nil _ _, by simp [hd.1], ?_⟩
      simp only [List.foldl, decimalStep, hd.2]
      omega
    · obtain ⟨pre, hpre, hne, hdig, hval⟩ :=
        toDigitsCore_ten fuel (n / 10) (Nat.digitChar (n % 10) :: ds) (by omega)
      refine ⟨pre ++ [Nat.digitChar (n % 10)], by simp [hpre], by simp, by simp [hdig, hd.1], ?_⟩
      rw [List.foldl_append, hval]
      simp only [List.foldl, decimalStep, hd.2]
      omega

theorem all_isDigit_toDigits (n : Nat) : (Nat.toDigits 10 n).all Char.isDigit := by
  obtain ⟨pre, h, -, hdig, -⟩ := toDigitsCore_ten (n + 1) n [] (Nat.lt_succ_self n)
  rw [Nat.toDigits, h, List.append_nil]
  exact hdig

/-- `stoul` parses what `operator<<` prints. -/
theorem stoul_toDigits {n : Nat} (h : n < 2 ^ 64) : stoul (Nat.toDigits 10 n) = some n := by
  obtain ⟨pre, hpre, hne, hdig, hval⟩ := toDigitsCore_ten (n + 1) n [] (Nat.lt_succ_self n)
  rw [Nat.toDigits, hpre, List.append_nil, stoul, if_pos ⟨hne, hdig⟩]
  simp only [hval, if_pos h]

/-- A digit is neither of the delimiters. -/
theorem not_mem_toDigits (n : Nat) : ' ' ∉ Nat.toDigits 10 n ∧ '-' ∉ Nat.toDigits 10 n := by
  have h := List.all_eq_true.mp (all_isDigit_toDigits n)
  exact ⟨fun hm => absurd (h _ hm) (by decide), fun hm => absurd (h _ hm) (by decide)⟩

/-! ## Splitting -/

/-- Tokens each followed by the delimiter split back into the tokens and a last empty
field. -/
theorem splitOn_flatMap (d : Char) :
    ∀ (toks : List (List Char)), (∀ t ∈ toks, d ∉ t) →
      (toks.flatMap fun t => t ++ [d]).splitOn d = toks ++ [[]]
  | [], _ => rfl
  | t :: toks, h => by
    rw [List.flatMap_cons, List.append_assoc, List.singleton_append, List.splitOn,
      List.splitOnP_first (· == d) t (fun x hx hxd => h t (.head _) (beq_iff_eq.mp hxd ▸ hx)) d
        (by simp), ← List.splitOn, splitOn_flatMap d toks fun t' ht' => h t' (.tail _ ht')]
    rfl

/-- The text of the runs splits on spaces into an empty field and the tokens. -/
theorem stringSplit_space (toks : List (List Char)) (h : ∀ t ∈ toks, ' ' ∉ t) :
    stringSplit (' ' :: toks.flatMap fun t => t ++ [' ']) ' ' = [] :: toks := by
  have hsplit : (' ' :: toks.flatMap fun t => t ++ [' ']).splitOn ' ' = [] :: (toks ++ [[]]) := by
    rw [List.splitOn, List.splitOnP_cons, if_pos (by simp), ← List.splitOn, splitOn_flatMap ' ' toks h]
  rw [stringSplit]
  simp only [hsplit, ← List.cons_append, List.getLast?_concat, if_true, List.dropLast_concat]

/-- A range token splits on `-` into its two numbers. -/
theorem stringSplit_dash (a c : List Char) (ha : '-' ∉ a) (hc : '-' ∉ c) (hne : c ≠ []) :
    stringSplit (a ++ '-' :: c) '-' = [a, c] := by
  have hsplit : (a ++ '-' :: c).splitOn '-' = [a, c] := by
    rw [List.splitOn, List.splitOnP_first (· == '-') a
      (fun x hx hxd => ha (beq_iff_eq.mp hxd ▸ hx)) '-' (by simp),
      List.splitOnP_eq_single (· == '-') c (fun x hx hxd => hc (beq_iff_eq.mp hxd ▸ hx))]
  rw [stringSplit]
  simp [hsplit, hne]

/-! ## Round trip -/

/-- The token `bitsetStrEncode` writes for a run `(p, l)`. -/
def runToken (r : Nat × Nat) : List Char :=
  if r.2 = 1 then Nat.toDigits 10 r.1
  else Nat.toDigits 10 r.1 ++ '-' :: Nat.toDigits 10 (r.1 + r.2 - 1)

/-- The encoder writes one token per run. -/
theorem bitsetStrEncodeFrom_eq (b : Bitset size) (idx : Nat) :
    bitsetStrEncodeFrom b idx = (runsFrom b idx).flatMap fun r => runToken r ++ [' '] := by
  induction idx using runsFrom.induct b with
  | case1 idx hlt h ih =>
    rw [bitsetStrEncodeFrom, if_pos hlt, if_pos h, runsFrom_of_test b hlt h, List.flatMap_cons,
      ← ih, runLength_of_test b h]
    by_cases hone : idx ≥ size - 1 ∨ b.test (idx + 1) = false
    · have hzero : runLength b (idx + 1) = 0 := by
        apply runLength_of_not_test
        rcases hone with hge | hf
        · exact b.test_eq_false_of_le (by omega)
        · exact hf
      rw [if_pos hone, hzero, runToken, if_pos rfl]
      simp
    · have hpos : 0 < runLength b (idx + 1) :=
        runLength_pos b (by simpa using (not_or.mp hone).2)
      rw [if_neg hone, runToken, if_neg (by omega),
        show idx + (runLength b (idx + 1) + 1) - 1 = idx + runLength b (idx + 1) by omega,
        show idx + (runLength b (idx + 1) + 1) = idx + 1 + runLength b (idx + 1) by omega]
      simp
  | case2 idx hlt h ih =>
    rw [bitsetStrEncodeFrom, if_pos hlt, if_neg h, ih, runsFrom_of_not_test b hlt h]
  | case3 idx h => rw [bitsetStrEncodeFrom, if_neg h, runsFrom_of_le b h]; rfl

/-- Inside the bitmap the set loop ors the run in. -/
theorem setRange_eq (b : Bitset size) (j n : Nat) (h : j + n ≤ size) :
    setRange b j n = .ok (b.orRuns [(j, n)]) := by
  induction n generalizing b j with
  | zero => simp [setRange, orRuns_zero]
  | succ n ih =>
    simp only [setRange, set_of_lt b (by omega : j < size)]
    show setRange _ _ _ = _
    rw [ih _ _ (by omega), orRuns_succ]

/-- Each token decodes to its run. -/
theorem bitsetStrDecodeToken_runToken (bitmap : Bitset size) (r : Nat × Nat) (h1 : 0 < r.2)
    (h2 : r.1 + r.2 ≤ size) (hs : size ≤ 2 ^ 64) :
    bitsetStrDecodeToken bitmap (runToken r) = .ok (bitmap.orRuns [r]) := by
  have hp := not_mem_toDigits r.1
  have he := not_mem_toDigits (r.1 + r.2 - 1)
  rw [bitsetStrDecodeToken, runToken]
  by_cases hone : r.2 = 1
  · rw [if_pos hone, if_neg hp.2, stoul_toDigits (by omega)]
    simp only
    rw [set_of_lt bitmap (by omega), ← hone]
  · have hne : Nat.toDigits 10 (r.1 + r.2 - 1) ≠ [] := by
      obtain ⟨pre, hpre, hne, -⟩ := toDigitsCore_ten (r.1 + r.2 - 1 + 1) (r.1 + r.2 - 1) []
        (Nat.lt_succ_self _)
      rw [Nat.toDigits, hpre, List.append_nil]; exact hne
    rw [if_neg hone, if_pos (by simp), stringSplit_dash _ _ hp.2 he.2 hne]
    simp only [List.getElem?_cons_zero, List.getElem?_cons_succ]
    rw [stoul_toDigits (by omega), stoul_toDigits (by omega)]
    simp only
    rw [if_neg (by omega), setRange_eq bitmap _ _ (by omega),
      show r.1 + r.2 - 1 + 1 - r.1 = r.2 by omega]

/-- The tokens of runs inside the bitmap decode to their union. -/
theorem bitsetStrDecodeLoop_runTokens (hs : size ≤ 2 ^ 64) :
    ∀ (bitmap : Bitset size) (rs : List (Nat × Nat)), (∀ r ∈ rs, 0 < r.2 ∧ r.1 + r.2 ≤ size) →
      bitsetStrDecodeLoop bitmap (rs.map runToken) = .ok (bitmap.orRuns rs)
  | bitmap, [], _ => by simp [bitsetStrDecodeLoop]
  | bitmap, r :: rs, h => by
    have hr := h r (.head _)
    simp only [List.map_cons, bitsetStrDecodeLoop,
      bitsetStrDecodeToken_runToken bitmap r hr.1 hr.2 hs]
    show bitsetStrDecodeLoop _ _ = _
    rw [bitsetStrDecodeLoop_runTokens hs _ rs fun r' hr' => h r' (.tail _ hr'),
      ← orRuns_cons]

/-- Decoding the text of a bitmap gives it back, for any size a `uint64_t` counts. -/
theorem bitsetStrDecode_bitsetStrEncode_of_le (b : Bitset size) (hs : size ≤ 2 ^ 64) :
    bitsetStrDecode size (bitsetStrEncode b) = .ok b := by
  have hmem := fun r (hr : r ∈ runsFrom b 0) => mem_runsFrom b hr
  have htok : ∀ t ∈ (runsFrom b 0).map runToken, ' ' ∉ t := by
    simp only [List.mem_map]
    rintro t ⟨r, -, rfl⟩ hm
    unfold runToken at hm
    split at hm
    · exact (not_mem_toDigits r.1).1 hm
    · simp only [List.mem_append, List.mem_cons] at hm
      rcases hm with hm | hm | hm
      · exact (not_mem_toDigits r.1).1 hm
      · exact absurd hm (by decide)
      · exact (not_mem_toDigits _).1 hm
  have hflat : (runsFrom b 0).flatMap (fun r => runToken r ++ [' ']) =
      ((runsFrom b 0).map runToken).flatMap fun t => t ++ [' '] := by
    simp [List.flatMap_map]
  rw [bitsetStrDecode, bitsetStrEncode, bitsetStrEncodeFrom_eq, hflat, stringSplit_space _ htok]
  simp only
  rw [bitsetStrDecodeLoop_runTokens hs _ _ fun r hr => ⟨(hmem r hr).2.2.1, (hmem r hr).2.2.2⟩]
  exact congrArg _ (ofRuns_runsFrom_zero b)

/-- **Textual round trip.** `bitsetStrDecode` of the text of any bitmap of
`CLUSTER_SLOTS` slots returns the bitmap. -/
theorem bitsetStrDecode_bitsetStrEncode (b : Bitset CLUSTER_SLOTS) :
    bitsetStrDecode CLUSTER_SLOTS (bitsetStrEncode b) = .ok b :=
  bitsetStrDecode_bitsetStrEncode_of_le b (by decide)

/-! ## Malformed text -/

/-- **Malformed tokens escape `ERR_DECODE`.** On `CLUSTER_SLOTS` slots, the single-slot
token `20000` reaches `bitmap.set(20000)`, which throws; the range token `5-` splits into
one field and reads the second; the empty text erases the first of no tokens. -/
theorem bitsetStrDecode_malformed :
    bitsetStrDecode CLUSTER_SLOTS " 20000 ".toList = .error (.outOfRange 20000) ∧
      bitsetStrDecode CLUSTER_SLOTS " 5- ".toList = .error (.pastEnd 1) ∧
      bitsetStrDecode CLUSTER_SLOTS "".toList = .error (.pastEnd 0) :=
  ⟨rfl, rfl, rfl⟩

end NovaDb
